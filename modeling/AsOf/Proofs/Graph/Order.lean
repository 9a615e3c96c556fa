import AsOf.Proofs.Checked
import AsOf.Proofs.Graph.Same

/-!
# What a walk puts in order

A walk that succeeds lists everything its roots depend on, each node behind all of its
dependencies. In the graph of a pipeline every reading of a term therefore becomes an
edge, and every edge leads to a node with a smaller number.

* `visit_spec`: one visit keeps the order closed and adds its node, if no path uses up its bound.
* `TermGraph.reads`: the edges of a node are the readings of its term, one by one.
* `TermGraph.outputs_spec`, `TermGraph.screen_spec`: the roots are nodes.
-/
namespace AsOf

namespace Walk

variable {N : Type} [BEq N] {dependencies : N → List N}

/-- All dependencies of a node stand before it. -/
def Closed (dependencies : N → List N) (order : List N) : Prop :=
  ∀ (i : Nat) (n : N), order[i]? = some n → ∀ dep ∈ dependencies n,
    (order.take i).contains dep = true

theorem contains_of_isPrefix {xs ys : List N} (h : xs <+: ys) {x : N} (hx : xs.contains x = true) :
    ys.contains x = true := by
  obtain ⟨zs, rfl⟩ := h
  rw [List.contains_eq_any_beq, List.any_append, ← List.contains_eq_any_beq, hx, Bool.true_or]

theorem closed_append {order : List N} (hc : Closed dependencies order) {node : N}
    (hd : ∀ dep ∈ dependencies node, order.contains dep = true) :
    Closed dependencies (order ++ [node]) := by
  intro i n hn dep hdep
  by_cases hi : i < order.length
  · rw [List.getElem?_append_left hi] at hn
    rw [List.take_append_of_le_length (Nat.le_of_lt hi)]
    exact hc i n hn dep hdep
  · rw [List.getElem?_append_right (by omega), List.getElem?_singleton] at hn
    split at hn
    · obtain rfl := Option.some.inj hn
      rw [show i = order.length by omega, List.take_left]
      exact hd dep hdep
    · cases hn

/-- The walk may add nodes behind an order, but only with their dependencies. -/
structure Extends (dependencies : N → List N) (order order' : List N) : Prop where
  isPrefix : order <+: order'
  closed : Closed dependencies order → Closed dependencies order'

theorem Extends.refl (order : List N) : Extends dependencies order order :=
  ⟨List.prefix_refl _, id⟩

theorem Extends.trans {a b c : List N} (hab : Extends dependencies a b)
    (hbc : Extends dependencies b c) : Extends dependencies a c :=
  ⟨hab.isPrefix.trans hbc.isPrefix, hbc.closed ∘ hab.closed⟩

/-- Visiting some nodes one after the other, if every visit does what it should. -/
theorem foldlM_spec {visit : List N → N → Except (List N) (List N)} {nodes : List N}
    (hv : ∀ n ∈ nodes, ∀ order order', visit order n = .ok order' →
      Extends dependencies order order' ∧ order'.contains n = true)
    {order order' : List N} (h : nodes.foldlM visit order = .ok order') :
    Extends dependencies order order' ∧ ∀ n ∈ nodes, order'.contains n = true := by
  induction nodes generalizing order with
  | nil =>
    obtain rfl := Except.ok.inj h
    exact ⟨.refl _, fun _ hn => nomatch hn⟩
  | cons n nodes ih =>
    rw [List.foldlM_cons] at h
    obtain ⟨mid, hmid, h⟩ := Checked.bind_eq_ok.1 h
    obtain ⟨hext, hn⟩ := hv n List.mem_cons_self _ _ hmid
    obtain ⟨hext', hrest⟩ := ih (fun m hm => hv m (List.mem_cons_of_mem _ hm)) h
    refine ⟨hext.trans hext', fun m hm => ?_⟩
    rcases List.mem_cons.1 hm with rfl | hm
    · exact contains_of_isPrefix hext'.isPrefix hn
    · exact hrest m hm

/-- The walk from a node is not cut short: no path that it follows uses up the bound. -/
def Bounded (dependencies : N → List N) : Nat → List N → N → Prop
  | 0, _, _ => False
  | bound + 1, path, node => path.contains node = false →
    ∀ dep ∈ dependencies node, Bounded dependencies bound (path ++ [node]) dep

/-- Where paths are no longer than the depth of the node that they come from. -/
theorem bounded_of_depth {depth : N → Nat} (hpos : ∀ n, 0 < depth n)
    (hdepth : ∀ n, ∀ dep ∈ dependencies n, depth dep < depth n) {bound : Nat} {path : List N} {node : N}
    (hb : depth node ≤ bound) : Bounded dependencies bound path node := by
  induction bound generalizing path node with
  | zero =>
    have := hpos node
    omega
  | succ bound ih =>
    intro _ dep hdep
    have := hdepth node dep hdep
    exact ih (by omega)

/-- A larger bound changes nothing then. -/
theorem Bounded.visit_eq {bound bound' : Nat} {path : List N} {node : N} (h : Bounded dependencies bound path node)
    (h' : Bounded dependencies bound' path node) (order : List N) :
    visit dependencies bound path order node = visit dependencies bound' path order node := by
  induction bound generalizing bound' path order node with
  | zero => exact h.elim
  | succ bound ih =>
    cases bound' with
    | zero => exact h'.elim
    | succ bound' =>
      rw [visit, visit]
      by_cases ho : order.contains node = true
      · rw [if_pos ho, if_pos ho]
      · by_cases hp : path.contains node = true
        · rw [if_neg ho, if_neg ho, if_pos hp, if_pos hp]
        · have hp' := Bool.eq_false_iff.2 hp
          rw [if_neg ho, if_neg ho, if_neg hp, if_neg hp, Checked.foldlM_congr]
          intro dep hdep order
          exact ih (h hp' dep hdep) (h' hp' dep hdep) order

/-- A visit that is not cut short adds its node behind all of its dependencies. -/
theorem visit_spec [ReflBEq N] {bound : Nat} {path order order' : List N} {node : N}
    (hb : Bounded dependencies bound path node) (h : visit dependencies bound path order node = .ok order') :
    Extends dependencies order order' ∧ order'.contains node = true := by
  induction bound generalizing path order order' node with
  | zero => exact hb.elim
  | succ bound ih =>
    rw [visit] at h
    split at h
    · rename_i hmem
      obtain rfl := Except.ok.inj h
      exact ⟨.refl _, hmem⟩
    · split at h
      · cases h
      · rename_i hp
        obtain ⟨mid, hmid, h⟩ := Checked.bind_eq_ok.1 h
        obtain rfl := Except.ok.inj h
        obtain ⟨hext, hdeps⟩ := @foldlM_spec _ _ dependencies _ _ (fun dep hdep order order' hv =>
          ih (hb (Bool.eq_false_iff.2 hp) dep hdep) hv) _ _ hmid
        refine ⟨⟨hext.isPrefix.trans (List.prefix_append _ _), fun hc =>
          closed_append (hext.closed hc) hdeps⟩, ?_⟩
        rw [List.contains_eq_any_beq, List.any_append, List.any_cons, beq_self_eq_true, Bool.true_or,
          Bool.or_true]

/-- Everything that the roots depend on, in an order that can be computed in. -/
theorem order_spec [ReflBEq N] {bound : Nat} {roots nodes : List N}
    (hb : ∀ n ∈ roots, Bounded dependencies bound [] n) (h : order dependencies bound roots = .ok nodes) :
    Closed dependencies nodes ∧ ∀ n ∈ roots, nodes.contains n = true := by
  obtain ⟨hext, hroots⟩ := @foldlM_spec _ _ dependencies _ _
    (fun n hn order order' hv => visit_spec (hb n hn) hv) _ _ h
  exact ⟨hext.closed fun _ _ hn => (nomatch hn), hroots⟩

/-- What holds of a node and passes on to dependencies holds of all that a visit adds. -/
theorem visit_all {P : N → Prop} (hd : ∀ n, P n → ∀ dep ∈ dependencies n, P dep) {bound : Nat}
    {path order order' : List N} {node : N} (hn : P node) (ho : ∀ n ∈ order, P n)
    (h : visit dependencies bound path order node = .ok order') : ∀ n ∈ order', P n := by
  induction bound generalizing path order order' node with
  | zero =>
    obtain rfl := Except.ok.inj h
    exact ho
  | succ bound ih =>
    rw [visit] at h
    split at h
    · obtain rfl := Except.ok.inj h
      exact ho
    · split at h
      · cases h
      · obtain ⟨mid, hmid, h⟩ := Checked.bind_eq_ok.1 h
        obtain rfl := Except.ok.inj h
        intro n hmem
        rcases List.mem_append.1 hmem with hmem | hmem
        · exact Checked.foldlM_keeps (P := fun order => ∀ n ∈ order, P n) ho
            (fun dep hdep order order' ho hv => ih (hd node hn dep hdep) ho hv) hmid n
            hmem
        · rw [List.mem_singleton.1 hmem]
          exact hn

/-- What holds of the roots and passes on to dependencies holds of all nodes. -/
theorem order_all {P : N → Prop} (hd : ∀ n, P n → ∀ dep ∈ dependencies n, P dep) {bound : Nat}
    {roots nodes : List N} (hr : ∀ n ∈ roots, P n) (h : order dependencies bound roots = .ok nodes) :
    ∀ n ∈ nodes, P n :=
  Checked.foldlM_keeps (P := fun order => ∀ n ∈ order, P n) (List.forall_mem_nil P)
    (fun n hn _ _ ho hv => visit_all hd (hr n hn) ho hv) h

/-- The roots and all that they depend on, directly or through others. -/
inductive Reached (dependencies : N → List N) (roots : List N) : N → Prop
  | root {n : N} (h : n ∈ roots) : Reached dependencies roots n
  | step {n dep : N} (h : Reached dependencies roots n) (hd : dep ∈ dependencies n) : Reached dependencies roots dep

/-- Nothing else comes into the order. -/
theorem order_reached {bound : Nat} {roots nodes : List N} (h : order dependencies bound roots = .ok nodes) :
    ∀ n ∈ nodes, Reached dependencies roots n :=
  order_all (fun _ hn _ hd => hn.step hd) (fun _ hn => .root hn) h

end Walk

/-! ## Terms -/

namespace Term

/-- A bound on the length of a path of dependencies; what is loaded has none. -/
def depth (t : Term) : Nat := if t.isLoadable then 1 else t.height

theorem two_le_height (t : Term) : 2 ≤ t.height := by
  have main (t : Term) : 1 ≤ t.height := by
    cases t
    rw [height]
    omega
  cases t with
  | mk head inputs mask =>
    rw [height]
    have : 1 ≤ maskHeight mask := by
      cases mask with
      | none => exact Nat.le_refl 1
      | some m => exact main m
    omega

theorem height_le_heights {t : Term} {ts : List Term} (h : t ∈ ts) : t.height ≤ heights ts := by
  induction ts with
  | nil => cases h
  | cons s ts ih =>
    rw [heights]
    rcases List.mem_cons.1 h with rfl | h
    · exact Nat.le_max_left _ _
    · exact Nat.le_trans (ih h) (Nat.le_max_right _ _)

theorem depth_le_height (t : Term) : t.depth ≤ t.height := by
  rw [depth]
  split
  · exact Nat.le_of_succ_le (two_le_height t)
  · exact Nat.le_refl _

theorem depth_pos (t : Term) : 0 < t.depth := by
  rw [depth]
  split
  · exact Nat.one_pos
  · exact Nat.lt_of_succ_le (Nat.le_of_succ_le (two_le_height t))

theorem depth_lt {t dep : Term} (h : dep ∈ t.dependencies) : dep.depth < t.depth := by
  rw [dependencies, readings] at h
  by_cases hl : t.isLoadable = true
  · rw [if_pos hl] at h
    cases h
  · rw [if_neg hl] at h
    rw [show t.depth = t.height from if_neg hl]
    obtain ⟨head, inputs, mask⟩ := t
    rw [height]
    simp only [List.map_append, List.map_map, List.map_cons, List.map_nil, List.mem_append,
      List.mem_singleton, Term.inputs, Term.mask] at h
    rcases h with h | rfl
    · obtain ⟨input, hi, rfl⟩ := List.mem_map.1 h
      have hd : input.depth ≤ input.height := depth_le_height input
      have hh : input.height ≤ heights inputs := height_le_heights hi
      show input.depth < _
      omega
    · cases mask with
      | none =>
        have : maskHeight none = 1 := rfl
        show depth assetExists < _
        rw [show depth assetExists = 1 from rfl]
        omega
      | some m =>
        have hd : m.depth ≤ m.height := depth_le_height m
        have : maskHeight (some m) = m.height := rfl
        show m.depth < _
        omega

end Term

/-! ## The graph of a pipeline -/

theorem forall₂_filterMap {α β : Type} {R : α → β → Prop} {f : α → Option β} {xs : List α}
    (h : ∀ x ∈ xs, ∃ y, f x = some y ∧ R x y) : List.Forall₂ R xs (xs.filterMap f) := by
  induction xs with
  | nil => exact .nil
  | cons x xs ih =>
    obtain ⟨y, hy, hr⟩ := h x List.mem_cons_self
    rw [List.filterMap_cons_some hy]
    exact .cons hr (ih fun x hx => h x (List.mem_cons_of_mem _ hx))

namespace TermGraph

/-- An item that a list holds is found, and not behind where it stands. -/
theorem exists_indexIn? {terms : List Term} {t : Term} (h : terms.contains t = true) :
    ∃ j t', indexIn? terms t = some j ∧ terms[j]? = some t' ∧ t'.same t = true := by
  rw [List.contains_eq_any_beq, List.any_eq_true] at h
  obtain ⟨x, hx, hxt⟩ := h
  have hsome : (indexIn? terms t).isSome = true := by
    rw [indexIn?, List.findIdx?_isSome, List.any_eq_true]
    exact ⟨x, hx, (Term.same_comm x t).trans hxt⟩
  obtain ⟨j, hj⟩ := Option.isSome_iff_exists.1 hsome
  obtain ⟨hlt, hp, -⟩ := List.findIdx?_eq_some_iff_getElem.1 hj
  exact ⟨j, terms[j], hj, List.getElem?_eq_getElem hlt, hp⟩

/-- What is found in the front of a list is found there in the whole list. -/
theorem indexIn?_lt {terms : List Term} {t : Term} {i : Nat} (h : (terms.take i).contains t = true) :
    ∃ j t', indexIn? terms t = some j ∧ j < i ∧ terms[j]? = some t' ∧ t'.same t = true := by
  obtain ⟨j, t', hj, hg, hs⟩ := exists_indexIn? h
  have hlt : j < (terms.take i).length := (List.getElem?_eq_some_iff.1 hg).1
  have hji : j < i := by
    rw [List.length_take] at hlt
    omega
  refine ⟨j, t', ?_, hji, by rwa [List.getElem?_take_of_lt hji] at hg, hs⟩
  rw [indexIn?, ← List.take_append_drop i terms, List.findIdx?_append]
  rw [show List.findIdx? (· == t) (terms.take i) = some j from hj]
  rfl

variable {outputs : Named Term} {screen : Option Term} {g : TermGraph}

/-- The parts of a graph that is built. -/
theorem of?_eq_ok (h : of? outputs screen = .ok g) :
    ∃ terms, Term.inOrder (outputs.items ++ screen.toList) = .ok terms ∧ g.terms.toList = terms ∧
      g.edges.toList = terms.map (edgesIn terms) ∧
      g.outputs = outputs.filterMap (fun (name, t) => (indexIn? terms t).map (name, ·)) ∧
      g.screen = screen.bind (indexIn? terms) := by
  obtain ⟨terms, hterms, h⟩ := Checked.bind_eq_ok.1 h
  obtain rfl := Except.ok.inj h
  exact ⟨terms, hterms, rfl, rfl, rfl, rfl⟩

theorem inOrder_spec {roots terms : List Term} (h : Term.inOrder roots = .ok terms) :
    Walk.Closed Term.dependencies terms ∧ ∀ t ∈ roots, terms.contains t = true :=
  Walk.order_spec (fun t ht => Walk.bounded_of_depth Term.depth_pos (fun _ _ => Term.depth_lt)
    (Nat.le_succ_of_le (Nat.le_trans (Term.depth_le_height t) (Term.height_le_heights ht)))) h

/-- What holds of outputs and screen and passes on to dependencies holds of all terms. -/
theorem forall_terms (h : of? outputs screen = .ok g) {P : Term → Prop}
    (hd : ∀ t, P t → ∀ dep ∈ t.dependencies, P dep)
    (hr : ∀ t ∈ outputs.items ++ screen.toList, P t) {node : Nat} {t : Term}
    (ht : g.terms[node]? = some t) : P t := by
  obtain ⟨terms, hterms, hg, -⟩ := of?_eq_ok h
  refine Walk.order_all hd hr hterms t ?_
  rw [← hg]
  exact Array.mem_toList_iff.2 (Array.mem_of_getElem? ht)

/-- An edge stands for a reading: it leads to a node before the reader that holds the
term which is read. -/
structure Stands (g : TermGraph) (node : Nat) (r : Term.Reading) (e : Edge) : Prop where
  lt : e.node < node
  extraRows : e.extraRows = r.extraRows
  isMask : e.isMask = r.isMask
  term : ∃ t, g.terms[e.node]? = some t ∧ t.same r.term = true

/-- The edges of a node are the readings of its term. -/
theorem reads (h : of? outputs screen = .ok g) {node : Nat} {t : Term} (ht : g.terms[node]? = some t) :
    List.Forall₂ (Stands g node) t.readings (g.edgesOf node) := by
  obtain ⟨terms, hterms, hg, hedges, -, -⟩ := of?_eq_ok h
  have ht' : terms[node]? = some t := by rw [← hg, Array.getElem?_toList, ht]
  have he : g.edgesOf node = edgesIn terms t := by
    rw [edgesOf, Array.getD_eq_getD_getElem?, ← Array.getElem?_toList, hedges, List.getElem?_map, ht']
    rfl
  rw [he]
  refine forall₂_filterMap fun r hr => ?_
  obtain ⟨j, t', hj, hlt, hget, hsame⟩ :=
    indexIn?_lt ((inOrder_spec hterms).1 node t ht' r.term (List.mem_map_of_mem hr))
  refine ⟨⟨j, r.extraRows, r.isMask⟩, by rw [hj]; rfl, hlt, rfl, rfl, t', ?_, hsame⟩
  rw [← Array.getElem?_toList, hg, hget]

/-- A node without a term has no edges. -/
theorem edgesOf_eq_nil (h : of? outputs screen = .ok g) {node : Nat} (ht : g.terms[node]? = none) :
    g.edgesOf node = [] := by
  obtain ⟨terms, -, hg, hedges, -, -⟩ := of?_eq_ok h
  rw [edgesOf, Array.getD_eq_getD_getElem?, ← Array.getElem?_toList, hedges, List.getElem?_map, ← hg,
    Array.getElem?_toList, ht]
  rfl

theorem edges_lt (h : of? outputs screen = .ok g) (node : Nat) : ∀ e ∈ g.edgesOf node, e.node < node := by
  intro e he
  cases ht : g.terms[node]? with
  | none =>
    rw [edgesOf_eq_nil h ht] at he
    cases he
  | some t =>
    obtain ⟨r, -, hr⟩ := Checked.exists_left (reads h ht) he
    exact hr.lt

/-- The outputs are nodes that hold the output terms, under their names. -/
theorem outputs_spec (h : of? outputs screen = .ok g) :
    List.Forall₂ (fun o n => n.1 = o.1 ∧ ∃ t, g.terms[n.2]? = some t ∧ t.same o.2 = true)
      outputs g.outputs := by
  obtain ⟨terms, hterms, hg, -, hout, -⟩ := of?_eq_ok h
  rw [hout]
  refine forall₂_filterMap fun o ho => ?_
  obtain ⟨j, t', hj, hget, hsame⟩ := exists_indexIn?
    ((inOrder_spec hterms).2 o.2 (List.mem_append_left _ (List.mem_map_of_mem ho)))
  have ho' : (indexIn? terms o.2).map (o.1, ·) = some (o.1, j) := by rw [hj]; rfl
  refine ⟨(o.1, j), ho', rfl, t', ?_, hsame⟩
  rw [← Array.getElem?_toList, hg, hget]

/-- The screen is a node that holds the screen's term. -/
theorem screen_spec (h : of? outputs (some s) = .ok g) :
    ∃ node t, g.screen = some node ∧ g.terms[node]? = some t ∧ t.same s = true := by
  obtain ⟨terms, hterms, hg, -, -, hs⟩ := of?_eq_ok h
  obtain ⟨j, t', hj, hget, hsame⟩ := exists_indexIn?
    ((inOrder_spec hterms).2 s (List.mem_append_right _ List.mem_cons_self))
  refine ⟨j, t', by rw [hs, Option.bind_some, hj], ?_, hsame⟩
  rw [← Array.getElem?_toList, hg, hget]

theorem screen_none (h : of? outputs none = .ok g) : g.screen = none := by
  obtain ⟨terms, -, -, -, -, hs⟩ := of?_eq_ok h
  exact hs

end TermGraph
end AsOf
