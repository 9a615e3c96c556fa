import AsOf.Proofs.Graph.Depth
import AsOf.Proofs.Graph.Levels
import AsOf.Proofs.Graph.Once
import Mathlib.Order.Bounds.Basic

/-!
# Paths of dependencies

A path goes from an output or the screen along edges, and needs as many rows of the node that
it ends in as its edges read before their readers' own rows. Every node of a pipeline's graph
ends a path. If no path needs more rows than a word can count, the extra rows of a node are
the most that any path to it needs, and a plan is refused for want of history exactly if some
path needs more sessions than there are.

* `TermGraph.exists_needs`: every node ends a path.
* `Plan.extraRows_isGreatest`: the extra rows of a node.
* `Plan.insufficient_iff`: when history is wanting.
* `Plan.layered_of`, `Plan.byLevel_perm`: the levels part the nodes, and what a node reads is
  on a level below its own.
-/
namespace AsOf

namespace Walk

variable {N : Type} {dependencies : N → List N}

/-- What is added behind an order is one of some nodes, or something in the order depends on it. -/
structure Grows (dependencies : N → List N) (nodes order order' : List N) : Prop where
  subset : order ⊆ order'
  from_nodes : ∀ n ∈ order', n ∈ order ∨ n ∈ nodes ∨ ∃ m ∈ order', n ∈ dependencies m

theorem foldlM_grows {visit : List N → N → Except (List N) (List N)} {nodes : List N}
    (hv : ∀ n ∈ nodes, ∀ order order', visit order n = .ok order' → Grows dependencies [n] order order')
    {order order' : List N} (h : nodes.foldlM visit order = .ok order') : Grows dependencies nodes order order' := by
  induction nodes generalizing order with
  | nil =>
    obtain rfl := Except.ok.inj h
    exact ⟨fun _ hn => hn, fun _ hn => .inl hn⟩
  | cons n nodes ih =>
    rw [List.foldlM_cons] at h
    obtain ⟨mid, hmid, h⟩ := Checked.bind_eq_ok.1 h
    have hstep := hv n List.mem_cons_self _ _ hmid
    have hrest := ih (fun m hm => hv m (List.mem_cons_of_mem _ hm)) h
    refine ⟨fun x hx => hrest.subset (hstep.subset hx), fun x hx => ?_⟩
    rcases hrest.from_nodes x hx with hx | hx | hx
    · rcases hstep.from_nodes x hx with hx | hx | ⟨m, hm, hx⟩
      · exact .inl hx
      · exact .inr (.inl (List.mem_singleton.1 hx ▸ List.mem_cons_self))
      · exact .inr (.inr ⟨m, hrest.subset hm, hx⟩)
    · exact .inr (.inl (List.mem_cons_of_mem _ hx))
    · exact .inr (.inr hx)

variable [BEq N]

theorem visit_grows {bound : Nat} {path order order' : List N} {node : N}
    (h : visit dependencies bound path order node = .ok order') : Grows dependencies [node] order order' := by
  induction bound generalizing path order order' node with
  | zero =>
    obtain rfl := Except.ok.inj h
    exact ⟨fun _ hn => hn, fun _ hn => .inl hn⟩
  | succ bound ih =>
    rw [visit] at h
    split at h
    · obtain rfl := Except.ok.inj h
      exact ⟨fun _ hn => hn, fun _ hn => .inl hn⟩
    · split at h
      · cases h
      · obtain ⟨mid, hmid, h⟩ := Checked.bind_eq_ok.1 h
        obtain rfl := Except.ok.inj h
        have hdeps : Grows dependencies _ _ _ := foldlM_grows (fun _ _ _ _ hv => ih hv) hmid
        refine ⟨fun n hn => List.mem_append_left _ (hdeps.subset hn), fun n hn => ?_⟩
        rcases List.mem_append.1 hn with hn | hn
        · rcases hdeps.from_nodes n hn with hn | hn | ⟨m, hm, hn⟩
          · exact .inl hn
          · exact .inr (.inr ⟨node, List.mem_append_right _ (List.mem_singleton.2 rfl), hn⟩)
          · exact .inr (.inr ⟨m, List.mem_append_left _ hm, hn⟩)
        · exact .inr (.inl hn)

/-- Everything in order is a root, or something in order depends on it. -/
theorem order_from_roots {bound : Nat} {roots nodes : List N} (h : order dependencies bound roots = .ok nodes) :
    ∀ n ∈ nodes, n ∈ roots ∨ ∃ m ∈ nodes, n ∈ dependencies m := fun n hn =>
  ((foldlM_grows (fun _ _ _ _ hv => visit_grows hv) h).from_nodes n hn).resolve_left List.not_mem_nil

end Walk

namespace TermGraph

variable {outputs : Named Term} {screen : Option Term} {g : TermGraph}

/-- A path of dependencies from an output or the screen to a node needs some rows of it. -/
inductive Needs (g : TermGraph) : Nat → Nat → Prop
  | root {node : Nat} (h : g.isRoot node = true) : g.Needs node 0
  | edge {node rows : Nat} {e : Edge} (h : g.Needs node rows) (he : e ∈ g.edgesOf node) :
      g.Needs e.node (rows + e.extraRows.toNat)

/-- A node is an output or the screen, or a later node reads it. -/
theorem isRoot_or_read (h : of? outputs screen = .ok g) {node : Nat} (hn : node < g.size) :
    g.isRoot node = true ∨ ∃ reader, node < reader ∧ reader < g.size ∧ ∃ e ∈ g.edgesOf reader, e.node = node := by
  obtain ⟨terms, hterms, hg, -⟩ := of?_eq_ok h
  obtain ⟨term, ht⟩ : ∃ term, g.terms[node]? = some term := ⟨_, Array.getElem?_eq_getElem hn⟩
  have hmem : term ∈ terms := hg ▸ Array.mem_toList_iff.2 (Array.mem_of_getElem? ht)
  rcases Walk.order_from_roots hterms _ hmem with hroot | ⟨reader, hreader, hdep⟩
  · refine .inl ?_
    rw [isRoot, Bool.or_eq_true, beq_iff_eq, List.contains_iff_mem]
    rcases List.mem_append.1 hroot with hroot | hroot
    · obtain ⟨o, ho, hot⟩ := List.mem_map.1 hroot
      obtain ⟨n, hn', -, t, ht', hsame⟩ := Checked.exists_right (outputs_spec h) ho
      rw [hot] at hsame
      obtain rfl := node_unique h ht' ht hsame
      exact .inr (List.mem_map_of_mem hn')
    · cases screen with
      | none => cases hroot
      | some s =>
        obtain ⟨n, t, hscreen, ht', hsame⟩ := screen_spec h
        rw [← List.mem_singleton.1 hroot] at hsame
        obtain rfl := node_unique h ht' ht hsame
        exact .inl hscreen
  · refine .inr ?_
    obtain ⟨k, hk⟩ := List.getElem?_of_mem hreader
    rw [← hg, Array.getElem?_toList] at hk
    obtain ⟨r, hr, hrt⟩ := List.mem_map.1 hdep
    obtain ⟨e, he, hstands⟩ := Checked.exists_right (reads h hk) hr
    obtain ⟨t, ht', hsame⟩ := hstands.term
    rw [hrt] at hsame
    have heq := node_unique h ht' ht hsame
    exact ⟨k, heq ▸ hstands.lt, (Array.getElem?_eq_some_iff.1 hk).1, e, he, heq⟩

/-- The outputs and the screen are nodes. -/
theorem isRoot_lt (h : of? outputs screen = .ok g) {node : Nat} (hr : g.isRoot node = true) : node < g.size := by
  rw [isRoot, Bool.or_eq_true, beq_iff_eq, List.contains_iff_mem] at hr
  rcases hr with hr | hr
  · cases screen with
    | none =>
      rw [screen_none h] at hr
      cases hr
    | some s =>
      obtain ⟨n, t, hn, ht, -⟩ := screen_spec h
      rw [hn] at hr
      obtain rfl := Option.some.inj hr
      exact (Array.getElem?_eq_some_iff.1 ht).1
  · obtain ⟨output, ho, rfl⟩ := List.mem_map.1 hr
    obtain ⟨_, -, -, t, ht, -⟩ := Checked.exists_left (outputs_spec h) ho
    exact (Array.getElem?_eq_some_iff.1 ht).1

theorem Needs.lt (h : of? outputs screen = .ok g) {node rows : Nat} (hn : g.Needs node rows) : node < g.size := by
  induction hn with
  | root hr => exact isRoot_lt h hr
  | edge _ he ih => exact Nat.lt_trans (edges_lt h _ _ he) ih

/-- Every node ends a path. -/
theorem exists_needs (h : of? outputs screen = .ok g) {node : Nat} (hn : node < g.size) :
    ∃ rows, g.Needs node rows := by
  obtain ⟨d, hd⟩ : ∃ d, g.size - node = d := ⟨_, rfl⟩
  induction d using Nat.strong_induction_on generalizing node with
  | _ d ih =>
    rcases isRoot_or_read h hn with hr | ⟨reader, hlt, hsize, e, he, rfl⟩
    · exact ⟨0, .root hr⟩
    · obtain ⟨rows, hrows⟩ := ih (g.size - reader) (by omega) hsize rfl
      exact ⟨_, hrows.edge he⟩

end TermGraph

namespace Plan

variable {outputs : Named Term} {screen : Option Term} {g : TermGraph}

/-! ## The rows that paths need -/

/-- The rows of a node are none, or an edge of a node from `low` on asks for them. -/
def Asked (g : TermGraph) (low : Nat) (extra : Array UInt64) : Prop :=
  ∀ k, extra.getD k 0 = 0 ∨ ∃ node, low ≤ node ∧ ∃ e ∈ g.edgesOf node, e.node = k ∧ k < node ∧
    extra.getD k 0 = extra.getD node 0 + e.extraRows

theorem Asked.demand {node : Nat} {extra : Array UInt64} (h : Asked g node extra) {e : Edge} (he : e ∈ g.edgesOf node)
    (hlt : e.node < node) : Asked g node (Plan.demand node extra e) := by
  have hkept (k : Nat) (hk : node ≤ k) : (Plan.demand node extra e).getD k 0 = extra.getD k 0 :=
    (demand_spec node extra e k).2 (by omega)
  intro k
  by_cases hk : k = e.node
  · have hcase : (Plan.demand node extra e).getD e.node 0 = extra.getD e.node 0 ∨
        (Plan.demand node extra e).getD e.node 0 = extra.getD node 0 + e.extraRows := by
      unfold Plan.demand
      by_cases hle : extra.getD e.node 0 < extra.getD node 0 + e.extraRows
      · simp only [if_pos hle]
        rw [getD_setIfInBounds]
        by_cases hin : e.node < extra.size
        · exact .inr (if_pos ⟨rfl, hin⟩)
        · exact .inl (if_neg fun h => hin h.2)
      · simp only [if_neg hle]
        exact .inl trivial
    subst hk
    rcases hcase with hcase | hcase
    · rw [hcase]
      refine (h e.node).imp_right ?_
      rintro ⟨n, hn, e', he', hk', hlt', hx⟩
      exact ⟨n, hn, e', he', hk', hlt', by rw [hkept n hn]; exact hx⟩
    · exact .inr ⟨node, Nat.le_refl _, e, he, rfl, hlt, by rw [hcase, hkept node (Nat.le_refl _)]⟩
  · rw [(demand_spec node extra e k).2 hk]
    refine (h k).imp_right ?_
    rintro ⟨n, hn, e', he', hk', hlt', hx⟩
    exact ⟨n, hn, e', he', hk', hlt', by rw [hkept n hn]; exact hx⟩

/-- The extra rows of a node are none, or an edge asks for exactly them. -/
theorem asked_extraRows (hlt : ∀ node, ∀ e ∈ g.edgesOf node, e.node < node) : Asked g 0 (extraRows g) := by
  have edges (node : Nat) (es : List Edge) (hes : ∀ e ∈ es, e ∈ g.edgesOf node) (extra : Array UInt64)
      (h : Asked g node extra) : Asked g node (es.foldl (demand node) extra) := by
    induction es generalizing extra with
    | nil => exact h
    | cons e es ih =>
      have he := hes e List.mem_cons_self
      exact ih (fun e he => hes e (List.mem_cons_of_mem _ he)) _ (h.demand he (hlt node e he))
  -- the nodes come from the last to the first
  have nodes (n : Nat) (extra : Array UInt64) (h : Asked g n extra) : Asked g 0
      ((List.range n).reverse.foldl (fun extra node => (g.edgesOf node).foldl (demand node) extra) extra) := by
    induction n generalizing extra with
    | zero => exact h
    | succ n ih =>
      rw [List.range_succ, List.reverse_append, List.reverse_singleton, List.singleton_append, List.foldl_cons]
      refine ih _ (edges n _ (fun _ he => he) extra fun k => (h k).imp_right ?_)
      rintro ⟨node, hn, rest⟩
      exact ⟨node, Nat.le_of_succ_le hn, rest⟩
  refine nodes g.size _ fun k => .inl ?_
  rw [Array.getD_eq_getD_getElem?, Array.getElem?_replicate]
  split <;> rfl

/-- No path needs more rows than a word can count. -/
def Countable (g : TermGraph) : Prop := ∀ node rows, g.Needs node rows → rows < 0x10000000000000000

/-- The extra rows of a node are the most that a path to it needs. -/
theorem extraRows_isGreatest (h : TermGraph.of? outputs screen = .ok g) (hw : Countable g) {node : Nat}
    (hn : node < g.size) : IsGreatest {rows | g.Needs node rows} ((extraRows g).getD node 0).toNat := by
  obtain ⟨d, hd⟩ : ∃ d, g.size - node = d := ⟨_, rfl⟩
  -- from the last node, which nothing reads, back
  induction d using Nat.strong_induction_on generalizing node with
  | _ d ih =>
    have hreader {reader : Nat} {e : Edge} (hlt : node < reader) (hr : reader < g.size) (he : e ∈ g.edgesOf reader)
        (hk : e.node = node) : g.Needs node (((extraRows g).getD reader 0).toNat + e.extraRows.toNat) ∧
          ((extraRows g).getD reader 0 + e.extraRows).toNat =
            ((extraRows g).getD reader 0).toNat + e.extraRows.toNat ∧
          ((extraRows g).getD reader 0).toNat + e.extraRows.toNat ≤ ((extraRows g).getD node 0).toNat ∧
          ∀ rows, g.Needs reader rows → rows ≤ ((extraRows g).getD reader 0).toNat := by
      obtain ⟨hat, hmost⟩ := ih (g.size - reader) (by omega) hr rfl
      have hneeds := TermGraph.Needs.edge hat he
      have hsum : ((extraRows g).getD reader 0 + e.extraRows).toNat =
          ((extraRows g).getD reader 0).toNat + e.extraRows.toNat := by
        rw [UInt64.toNat_add]
        exact Nat.mod_eq_of_lt (hw _ _ hneeds)
      have hmet := UInt64.le_iff_toNat_le.1 ((extraRows_spec (TermGraph.edges_lt h)).2 reader hr e he)
      rw [hsum, hk] at hmet
      exact ⟨hk ▸ hneeds, hsum, hmet, fun rows hrows => hmost hrows⟩
    have hmost : ((extraRows g).getD node 0).toNat ∈ upperBounds {rows | g.Needs node rows} := by
      intro rows hrows
      cases hrows with
      | root => exact Nat.zero_le _
      | @edge reader rows e hrows he =>
        have hr := hrows.lt h
        obtain ⟨-, -, hle, hall⟩ := hreader (TermGraph.edges_lt h reader e he) hr he rfl
        exact Nat.le_trans (Nat.add_le_add_right (hall rows hrows) _) hle
    refine ⟨?_, hmost⟩
    rcases asked_extraRows (TermGraph.edges_lt h) node with hzero | ⟨reader, -, e, he, hk, hlt, hx⟩
    · obtain ⟨rows, hrows⟩ := TermGraph.exists_needs h hn
      have hle := hmost hrows
      rw [hzero] at hle ⊢
      obtain rfl : rows = 0 := Nat.le_zero.1 hle
      exact hrows
    · have hr : reader < g.size := by
        by_contra hout
        rw [TermGraph.edgesOf_eq_nil h (Array.getElem?_eq_none (Nat.le_of_not_lt hout))] at he
        cases he
      obtain ⟨hneeds, hsum, -⟩ := hreader hlt hr he hk
      show g.Needs node _
      rw [hx, hsum]
      exact hneeds

/-! ## History that is wanting -/

/-- The deepest node is a node with its rows. -/
theorem deepest?_mem {extra : Array UInt64} {node : Nat} {rows : UInt64} (h : deepest? extra = some (node, rows)) :
    node < extra.size ∧ extra.getD node 0 = rows := by
  have main (xs : List (UInt64 × Nat)) (best : Option (Nat × UInt64)) (b : Nat × UInt64)
      (h : xs.foldl deeper best = some b) : best = some b ∨ (b.2, b.1) ∈ xs := by
    induction xs generalizing best with
    | nil => exact .inl h
    | cons x xs ih =>
      rcases ih _ h with hb | hb
      · unfold deeper at hb
        split at hb
        · split at hb
          · obtain rfl := Option.some.inj hb
            exact .inr List.mem_cons_self
          · exact .inl hb
        · obtain rfl := Option.some.inj hb
          exact .inr List.mem_cons_self
      · exact .inr (List.mem_cons_of_mem _ hb)
  rw [deepest?_eq] at h
  have hmem := (main _ none _ h).resolve_left nofun
  rw [List.mem_zipIdx_iff_getElem?, Array.getElem?_toList] at hmem
  refine ⟨(Array.getElem?_eq_some_iff.1 hmem).1, ?_⟩
  rw [Array.getD_eq_getD_getElem?, hmem]
  rfl

/-- Inside the calendar a plan is accepted, unless the deepest node is too deep. -/
theorem of?_eq {sessions first last : Nat} (hfl : first ≤ last) (hl : last < sessions) :
    of? g sessions first last =
      match deepest? (extraRows g) with
      | some (node, rows) =>
        if first < rows.toNat then .error (.insufficientHistory (g.textOf node) rows first)
        else .ok ⟨g, extraRows g, levels g⟩
      | none => .ok ⟨g, extraRows g, levels g⟩ := by
  unfold of?
  have hin : ¬(decide (last < first) || decide (sessions ≤ last)) = true := by
    simp only [Bool.or_eq_true, decide_eq_true_eq]
    omega
  rw [if_neg hin]
  cases hdeep : deepest? (extraRows g) with
  | none =>
    simp only [hdeep]
    rfl
  | some b =>
    simp only [hdeep]
    by_cases hd : first < b.2.toNat
    · rw [if_pos hd, if_pos hd]
      rfl
    · rw [if_neg hd, if_neg hd]
      rfl

/-- History is wanting if a path needs more sessions than there are. -/
theorem insufficient_iff (h : TermGraph.of? outputs screen = .ok g) (hw : Countable g) {sessions first last : Nat}
    (hfl : first ≤ last) (hl : last < sessions) :
    (∃ text rows available, of? g sessions first last = .error (.insufficientHistory text rows available)) ↔
      ∃ node rows, g.Needs node rows ∧ first < rows := by
  have hsize := (extraRows_spec (TermGraph.edges_lt h)).1
  rw [of?_eq hfl hl]
  constructor
  · rintro ⟨text, rows, available, herr⟩
    split at herr
    · rename_i node rows hdeep
      split at herr
      · rename_i hlt
        obtain ⟨hn, hx⟩ := deepest?_mem hdeep
        have hat := (extraRows_isGreatest h hw (hsize ▸ hn)).1
        exact ⟨node, _, hat, by rwa [hx]⟩
      · cases herr
    · cases herr
  · rintro ⟨node, rows, hneeds, hlt⟩
    have hn := hneeds.lt h
    obtain ⟨deepest, most, hdeep, hle⟩ := deepest?_spec (hsize.symm ▸ hn)
    have hrows := (extraRows_isGreatest h hw hn).2 hneeds
    have hle := UInt64.le_iff_toNat_le.1 hle
    rw [hdeep]
    exact ⟨_, _, _, if_pos (by omega)⟩

/-! ## Levels -/

variable {p : Plan}

/-- What the levels of a plan rely on. -/
structure Layered (p : Plan) : Prop where
  lt : ∀ node, ∀ e ∈ p.graph.edgesOf node, e.node < node
  bounded : ∀ node, p.size ≤ node → p.graph.edgesOf node = []
  size : p.level.size = p.size
  above : ∀ node < p.size, ∀ dep ∈ p.graph.readBy node, p.levelOf dep < p.levelOf node
  lowest : ∀ node < p.size, p.graph.edgesOf node = [] → p.levelOf node = 0
  stepped : ∀ node < p.size, 0 < p.levelOf node → ∃ dep ∈ p.graph.readBy node, p.levelOf dep + 1 = p.levelOf node
  roots : ∀ node, p.graph.isRoot node = true → node < p.size

/-- The plan of a graph that was built is layered. -/
theorem layered_of (h : TermGraph.of? outputs screen = .ok g) {sessions first last : Nat}
    (hp : of? g sessions first last = .ok p) : p.Layered := by
  obtain ⟨rfl, -⟩ := of?_spec hp
  obtain ⟨hsize, hlevels⟩ := levels_spec (TermGraph.edges_lt h)
  exact ⟨TermGraph.edges_lt h, fun node hn => TermGraph.edgesOf_eq_nil h (Array.getElem?_eq_none hn), hsize,
    fun node hn => (hlevels node hn).1, fun node hn => (hlevels node hn).2,
    fun node hn => exists_below (TermGraph.edges_lt h) hn, fun node => TermGraph.isRoot_lt h⟩

/-- The levels part the nodes. -/
theorem byLevel_perm (hl : p.Layered) : p.byLevel.flatten.Perm (List.range p.size) := by
  rw [byLevel_eq hl.size, ← List.flatMap_def]
  refine (List.perm_ext_iff_of_nodup ?_ List.nodup_range).2 fun node => ?_
  · refine List.nodup_flatMap.2 ⟨fun l _ => List.nodup_range.filter _, ?_⟩
    refine List.nodup_range.imp fun {a b} hab node ha hb => hab ?_
    rw [← (mem_nodesAt.1 ha).2, ← (mem_nodesAt.1 hb).2]
  · rw [List.mem_flatMap, List.mem_range]
    constructor
    · rintro ⟨l, -, hmem⟩
      exact (mem_nodesAt.1 hmem).1
    · intro hn
      exact ⟨_, List.mem_range.2 (levelOf_lt_depth hl.size hn), mem_nodesAt.2 ⟨hn, rfl⟩⟩

theorem getElem?_byLevel (hl : p.Layered) {l : Nat} {nodes : List Nat} (h : p.byLevel[l]? = some nodes) :
    nodes = p.nodesAt l := by
  rw [byLevel_eq hl.size, List.getElem?_map] at h
  obtain ⟨l', hl', rfl⟩ := Option.map_eq_some_iff.1 h
  obtain ⟨hlt, rfl⟩ := List.getElem?_eq_some_iff.1 hl'
  rw [List.getElem_range]

/-- No level is empty. -/
theorem nodesAt_ne_nil (hl : p.Layered) {l : Nat} (hd : l < p.depth) : p.nodesAt l ≠ [] := by
  have descend (n : Nat) : ∀ node < p.size, p.levelOf node = l + n → ∃ node < p.size, p.levelOf node = l := by
    induction n with
    | zero => exact fun node hn hlevel => ⟨node, hn, hlevel⟩
    | succ n ih =>
      intro node hn hlevel
      obtain ⟨dep, hdep, hbelow⟩ := hl.stepped node hn (by omega)
      obtain ⟨e, he, rfl⟩ := TermGraph.mem_readBy.1 hdep
      exact ih e.node (Nat.lt_trans (hl.lt node e he) hn) (by omega)
  rw [depth, ← Array.foldl_toList] at hd
  obtain ⟨x, hx, htop⟩ := (foldl_max_eq (· + 1) p.level.toList 0).resolve_left (by omega)
  obtain ⟨top, hget⟩ := List.getElem?_of_mem hx
  rw [Array.getElem?_toList] at hget
  have hlevel : p.levelOf top = x := by rw [levelOf, Array.getD_eq_getD_getElem?, hget]; rfl
  obtain ⟨node, hn, hnode⟩ := descend (x - l) top (hl.size ▸ (Array.getElem?_eq_some_iff.1 hget).1) (by omega)
  exact List.ne_nil_of_mem (mem_nodesAt.2 ⟨hn, hnode⟩)

end Plan
end AsOf
