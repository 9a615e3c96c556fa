import AsOf.Proofs.Graph.Order
import Mathlib.Data.List.Basic
import Mathlib.Data.List.Chain
import Mathlib.Data.List.Nodup
import Mathlib.Data.List.Perm.Subperm
import Mathlib.Logic.Relation

/-!
# What a walk of a finite graph finds

Where only finitely many of the nodes that some roots depend on have dependencies, no path
without repeats is longer than there are such nodes, and a walk with a larger bound is never
cut short. It either puts all nodes in order or finds a path from a node back to it, and it
finds one exactly if there is one to find.

* `bounded_of_finite`: the bound that is large enough.
* `visit_nodup`: no node is listed twice.
* `ends_visit`: a visit fails on a cycle only.
* `acyclic_of_closed`: where every node stands behind its dependencies, there is no cycle.
* `order_or_cycle`: what a walk finds.
-/
namespace AsOf.Walk

variable {N : Type} {dependencies : N → List N} {roots : List N}

/-- A node depends on another one directly. -/
def DependsOn (dependencies : N → List N) (n dep : N) : Prop := dep ∈ dependencies n

/-- A path of dependencies that ends where it begins. -/
structure Cycle (dependencies : N → List N) (chain : List N) : Prop where
  two_le : 2 ≤ chain.length
  closed : chain.head? = chain.getLast?
  along : chain.IsChain (DependsOn dependencies)

/-- The first node of a cycle depends on itself. -/
theorem Cycle.exists_transGen {chain : List N} (h : Cycle dependencies chain) :
    ∃ n ∈ chain, Relation.TransGen (DependsOn dependencies) n n := by
  obtain ⟨htwo, hclosed, halong⟩ := h
  cases chain with
  | nil => simp at htwo
  | cons n rest =>
    refine ⟨n, List.mem_cons_self, ?_⟩
    have hne : rest ≠ [] := by
      rintro rfl
      simp at htwo
    have hlast : n ∈ rest := by
      rw [List.head?_cons, List.getLast?_cons, List.getLast?_eq_getLast_of_ne_nil hne] at hclosed
      obtain hn := Option.some.inj hclosed
      rw [Option.getD_some] at hn
      exact hn ▸ List.getLast_mem hne
    have hpairs := (halong.imp fun _ _ hd => Relation.TransGen.single hd).pairwise
    exact List.rel_of_pairwise_cons hpairs hlast

variable [BEq N] [LawfulBEq N]

/-! ## How far a walk goes -/

/-- A path without repeats has no more nodes than there are nodes with dependencies. -/
theorem bounded_of_finite {sources : List N}
    (hs : ∀ n, Reached dependencies roots n → dependencies n ≠ [] → n ∈ sources) {bound : Nat}
    {path : List N} {node : N} (hnodup : path.Nodup) (hsub : path ⊆ sources) (hnode : Reached dependencies roots node)
    (hb : sources.length < path.length + bound) : Bounded dependencies bound path node := by
  induction bound generalizing path node with
  | zero =>
    have := (hnodup.subperm hsub).length_le
    omega
  | succ bound ih =>
    intro hp dep hdep
    have hnew : node ∉ path := by simpa using hp
    refine ih ?_ ?_ (hnode.step hdep) ?_
    · rw [← List.concat_eq_append]
      exact hnodup.concat hnew
    · have hmem := hs node hnode (List.ne_nil_of_mem hdep)
      simpa [List.subset_def, or_imp, forall_and] using ⟨hsub, hmem⟩
    · simp only [List.length_append, List.length_singleton]
      omega

/-! ## No node twice -/

/-- What a path leads through is not listed before the path ends. -/
theorem visit_avoids {bound : Nat} {path order order' : List N} {node m : N} (hm : m ∈ path) (ho : m ∉ order)
    (h : visit dependencies bound path order node = .ok order') : m ∉ order' := by
  induction bound generalizing path order order' node with
  | zero =>
    obtain rfl := Except.ok.inj h
    exact ho
  | succ bound ih =>
    rw [visit] at h
    split at h
    · obtain rfl := Except.ok.inj h
      exact ho
    · split at h
      · cases h
      · rename_i hp
        obtain ⟨mid, hmid, h⟩ := Checked.bind_eq_ok.1 h
        obtain rfl := Except.ok.inj h
        have hmid : m ∉ mid := Checked.foldlM_keeps (P := fun order => m ∉ order) ho
          (fun _ _ _ _ ho hv => ih (List.mem_append_left _ hm) ho hv) hmid
        have hne : m ≠ node := by
          rintro rfl
          exact hp (by simpa using hm)
        simp [hmid, hne]

/-- No node is listed twice. -/
theorem visit_nodup {bound : Nat} {path order order' : List N} {node : N} (ho : order.Nodup)
    (h : visit dependencies bound path order node = .ok order') : order'.Nodup := by
  induction bound generalizing path order order' node with
  | zero =>
    obtain rfl := Except.ok.inj h
    exact ho
  | succ bound ih =>
    rw [visit] at h
    split at h
    · obtain rfl := Except.ok.inj h
      exact ho
    · rename_i hnew
      split at h
      · cases h
      · obtain ⟨mid, hmid, h⟩ := Checked.bind_eq_ok.1 h
        obtain rfl := Except.ok.inj h
        have hnodup : mid.Nodup := Checked.foldlM_keeps ho (fun _ _ _ _ ho hv => ih ho hv) hmid
        -- the node is on the path of all that is visited for it
        have hmem : node ∉ mid := Checked.foldlM_keeps (P := fun order => node ∉ order) (by simpa using hnew)
          (fun _ _ _ _ ho hv => visit_avoids (by simp) ho hv) hmid
        rw [← List.concat_eq_append]
        exact hnodup.concat hmem

/-! ## Cycles -/

/-- The part of a path from a node on that the path leads back to. -/
theorem cycle_of_path {path : List N} {node : N} (hpath : (path ++ [node]).IsChain (DependsOn dependencies))
    (hmem : node ∈ path) : Cycle dependencies (path.dropWhile (· != node) ++ [node]) ∧
      ∀ n ∈ path.dropWhile (· != node) ++ [node], n ∈ path := by
  obtain ⟨before, rest, rfl, hbefore⟩ := List.eq_append_cons_of_mem hmem
  have hdrop : (before ++ node :: rest).dropWhile (· != node) = node :: rest := by
    rw [List.dropWhile_append_of_pos, List.dropWhile_cons_of_neg (by simp)]
    intro n hn
    exact bne_iff_ne.2 fun he => hbefore (he ▸ hn)
  rw [hdrop]
  refine ⟨⟨by simp, by simp [List.getLast?_cons], ?_⟩, ?_⟩
  · rw [List.append_assoc] at hpath
    exact hpath.right_of_append
  · intro n hn
    simp only [List.cons_append, List.mem_cons, List.mem_append, List.not_mem_nil, or_false] at hn ⊢
    tauto

/-- A visit fails on a cycle that the roots lead to, and on nothing else. -/
theorem ends_visit {bound : Nat} {path order : List N} {node : N}
    (hpath : (path ++ [node]).IsChain (DependsOn dependencies))
    (hreached : ∀ n ∈ path ++ [node], Reached dependencies roots n) :
    Checked.Ends (fun _ => True) (fun chain => Cycle dependencies chain ∧ ∀ n ∈ chain, Reached dependencies roots n)
      (visit dependencies bound path order node) := by
  induction bound generalizing path order node with
  | zero => trivial
  | succ bound ih =>
    rw [visit]
    split
    · trivial
    · split
      · rename_i hmem
        obtain ⟨hcycle, hsub⟩ := cycle_of_path hpath (by simpa using hmem)
        exact ⟨hcycle, fun n hn => hreached n (List.mem_append_left _ (hsub n hn))⟩
      · refine (Checked.ends_foldlM (B := fun _ => True) (fun dep hdep order _ => ih ?_ ?_) trivial).bind fun _ _ => trivial
        · rw [List.isChain_append]
          refine ⟨hpath, List.isChain_singleton _, fun last hlast next hnext => ?_⟩
          simp at hlast hnext
          subst hlast hnext
          exact hdep
        · intro n hn
          rcases List.mem_append.1 hn with hn | hn
          · exact hreached n hn
          · rw [List.mem_singleton.1 hn]
            exact (hreached node (by simp)).step hdep

theorem ends_order {bound : Nat} : Checked.Ends (fun _ => True)
    (fun chain => Cycle dependencies chain ∧ ∀ n ∈ chain, Reached dependencies roots n) (order dependencies bound roots) :=
  Checked.ends_foldlM (fun n hn _ _ => ends_visit (by simp) (by simpa using Reached.root hn)) trivial

/-- A dependency stands before its node. -/
theorem idxOf_dependency_lt {nodes : List N} (hc : Closed dependencies nodes) {n dep : N} (hn : n ∈ nodes)
    (hd : dep ∈ dependencies n) : dep ∈ nodes ∧ nodes.idxOf dep < nodes.idxOf n := by
  have htake : dep ∈ nodes.take (nodes.idxOf n) := by
    simpa using hc _ n (List.getElem?_idxOf hn) dep hd
  have hidx : (nodes.take (nodes.idxOf n) ++ nodes.drop (nodes.idxOf n)).idxOf dep = _ :=
    List.idxOf_append_of_mem htake
  rw [List.take_append_drop] at hidx
  refine ⟨List.mem_of_mem_take htake, ?_⟩
  rw [hidx]
  exact Nat.lt_of_lt_of_le (List.idxOf_lt_length_of_mem htake) (List.length_take_le _ _)

/-- So no node depends on itself, however far around. -/
theorem acyclic_of_closed {nodes : List N} (hc : Closed dependencies nodes) {n m : N} (hn : n ∈ nodes)
    (h : Relation.TransGen (DependsOn dependencies) n m) : m ∈ nodes ∧ nodes.idxOf m < nodes.idxOf n := by
  induction h with
  | single hd => exact idxOf_dependency_lt hc hn hd
  | tail _ hd ih =>
    obtain ⟨hmem, hlt⟩ := ih
    obtain ⟨hmem', hlt'⟩ := idxOf_dependency_lt hc hmem hd
    exact ⟨hmem', Nat.lt_trans hlt' hlt⟩

/-! ## What is found -/

/-- With a bound above the number of nodes that have dependencies, the walk from some roots
never uses up the bound. It lists what the roots depend on, each node once and behind all of
its dependencies, if there is no cycle among them, and is refused with a cycle if there is. -/
theorem order_or_cycle {sources : List N}
    (hs : ∀ n, Reached dependencies roots n → dependencies n ≠ [] → n ∈ sources) {bound : Nat}
    (hb : sources.length < bound) :
    (∀ larger, bound ≤ larger → order dependencies larger roots = order dependencies bound roots) ∧
    ((∃ nodes, order dependencies bound roots = .ok nodes) ↔
      ¬∃ n, Reached dependencies roots n ∧ Relation.TransGen (DependsOn dependencies) n n) ∧
    (∀ nodes, order dependencies bound roots = .ok nodes → nodes.Nodup ∧
      (∀ n, n ∈ nodes ↔ Reached dependencies roots n) ∧
      ∀ i n, nodes[i]? = some n → ∀ dep ∈ dependencies n, dep ∈ nodes.take i) ∧
    ∀ chain, order dependencies bound roots = .error chain →
      Cycle dependencies chain ∧ ∀ n ∈ chain, Reached dependencies roots n := by
  have hbounded {larger : Nat} (hl : bound ≤ larger) : ∀ n ∈ roots, Bounded dependencies larger [] n := fun n hn =>
    bounded_of_finite hs List.nodup_nil (List.nil_subset _) (.root hn) (by simpa using Nat.lt_of_lt_of_le hb hl)
  have hspec (nodes : List N) (h : order dependencies bound roots = .ok nodes) : nodes.Nodup ∧
      (∀ n, n ∈ nodes ↔ Reached dependencies roots n) ∧ Closed dependencies nodes := by
    obtain ⟨hclosed, hroots⟩ := order_spec (hbounded (Nat.le_refl _)) h
    refine ⟨Checked.foldlM_keeps List.nodup_nil (fun _ _ _ _ ho hv => visit_nodup ho hv) h,
      fun n => ⟨order_reached h n, fun hn => ?_⟩, hclosed⟩
    induction hn with
    | root hn => simpa using hroots _ hn
    | step _ hd ih => exact (idxOf_dependency_lt hclosed ih hd).1
  have hcycle (chain : List N) (h : order dependencies bound roots = .error chain) :
      Cycle dependencies chain ∧ ∀ n ∈ chain, Reached dependencies roots n := by
    have hends : Checked.Ends _ _ (order dependencies bound roots) := ends_order
    rwa [h] at hends
  refine ⟨fun larger hl => Checked.foldlM_congr (fun n hn order =>
    (hbounded hl n hn).visit_eq (hbounded (Nat.le_refl _) n hn) order) [], ⟨?_, ?_⟩, fun nodes h => ?_, hcycle⟩
  · rintro ⟨nodes, h⟩ ⟨n, hn, hself⟩
    obtain ⟨-, hmem, hclosed⟩ := hspec nodes h
    exact Nat.lt_irrefl _ (acyclic_of_closed hclosed ((hmem n).2 hn) hself).2
  · intro hacyclic
    cases h : order dependencies bound roots with
    | ok nodes => exact ⟨nodes, rfl⟩
    | error chain =>
      obtain ⟨hchain, hreached⟩ := hcycle chain h
      obtain ⟨n, hn, hself⟩ := hchain.exists_transGen
      exact absurd ⟨n, hreached n hn, hself⟩ hacyclic
  · obtain ⟨hnodup, hmem, hclosed⟩ := hspec nodes h
    refine ⟨hnodup, hmem, fun i n hi dep hd => ?_⟩
    simpa using hclosed i n hi dep hd

/-! Graphs that are given by lists. -/

/-- Only nodes that are listed have dependencies. -/
theorem mem_of_lookup {graph : List (N × List N)} {n : N} (h : (graph.lookup n).getD [] ≠ []) :
    n ∈ graph.map Prod.fst := by
  induction graph with
  | nil => simp at h
  | cons entry graph ih =>
    rw [List.lookup_cons] at h
    split at h
    · rename_i heq
      simp [eq_of_beq heq]
    · exact List.mem_cons_of_mem _ (ih h)

/-- Two nodes in a ring, one that leads to it by two edges, and one that does not. -/
def ring : List (Nat × List Nat) := [(1, [2, 2]), (2, [3]), (3, [2]), (4, [5, 5])]

/-- The ring is not found from the node that does not lead to it, and is found from all nodes. -/
theorem order_or_cycle_ring :
    let dependencies (n : Nat) : List Nat := (ring.lookup n).getD []
    (∀ n, Reached dependencies [4, 1] n → dependencies n ≠ [] → n ∈ ring.map Prod.fst) ∧
    (ring.map Prod.fst).length < 6 ∧ ofLists ring [4] = .ok [5, 4] ∧ ofLists ring [4, 1] = .error [2, 3, 2] ∧
    (∀ larger, 6 ≤ larger → order dependencies larger [4, 1] = ofLists ring [4, 1]) ∧
    Cycle dependencies [2, 3, 2] ∧ ∀ n ∈ [2, 3, 2], Reached dependencies [4, 1] n := by
  intro dependencies
  have hs (n : Nat) (_ : Reached dependencies [4, 1] n) (h : dependencies n ≠ []) : n ∈ ring.map Prod.fst :=
    mem_of_lookup h
  have hb : (ring.map Prod.fst).length < 6 := by decide
  have hcycle : ofLists ring [4, 1] = .error [2, 3, 2] := by decide +kernel
  obtain ⟨hlarger, -, -, herror⟩ := order_or_cycle hs hb
  exact ⟨hs, hb, by decide +kernel, hcycle, hlarger, herror _ hcycle⟩

end AsOf.Walk
