import AsOf.Proofs.Graph.Paths
import Mathlib.Data.Set.Function

/-!
# Nothing lost, nothing twice

What a term reads is less deep than the term, so a walk never comes back to a term that it is
on its way from, and the graph of outputs and a screen is always built. It has one node for
each class of equal terms among those that outputs and screen depend on, and each node has
one edge for each reading of its term.

* `Walk.ends_visit_of_depth`: no visit fails where depths descend.
* `TermGraph.holds_of_reached`: whatever is read has a node.
* `TermGraph.graph_is_exact`: the graph as a whole.
-/
namespace AsOf

namespace Walk

variable {N : Type} [BEq N] {dependencies : N → List N} {depth : N → Nat}

/-- A visit does not fail where all that the path leads through is deeper than the node. -/
theorem ends_visit_of_depth (hsame : ∀ a b : N, (a == b) = true → depth a = depth b)
    (hdepth : ∀ n, ∀ dep ∈ dependencies n, depth dep < depth n) {bound : Nat} {path order : List N} {node : N}
    (hpath : ∀ n ∈ path, depth node < depth n) :
    Checked.Ends (fun _ => True) (fun _ => False) (visit dependencies bound path order node) := by
  induction bound generalizing path order node with
  | zero => trivial
  | succ bound ih =>
    rw [visit]
    split
    · trivial
    · split
      · rename_i hmem
        rw [List.contains_eq_any_beq, List.any_eq_true] at hmem
        obtain ⟨n, hn, heq⟩ := hmem
        have hlt := hpath n hn
        have := hsame node n heq
        omega
      · refine (Checked.ends_foldlM (B := fun _ => True) (fun dep hdep order _ => ih fun n hn => ?_) trivial).bind
          fun _ _ => trivial
        have hlt := hdepth node dep hdep
        rcases List.mem_append.1 hn with hn | hn
        · exact Nat.lt_trans hlt (hpath n hn)
        · rwa [List.mem_singleton.1 hn]

end Walk

/-- Terms up to `Term.same`. -/
def Term.classes : Setoid Term where
  r t u := t.same u = true
  iseqv := {
    refl := Term.same_refl
    symm := fun {t u} h => (Term.same_comm u t).trans h
    trans := fun {t u v} h h' => Term.same_trans t u v h h' }

namespace TermGraph

variable {outputs : Named Term} {screen : Option Term} {g : TermGraph}

/-- The graph of outputs and a screen can always be built. -/
theorem exists_of? (outputs : Named Term) (screen : Option Term) : ∃ g, of? outputs screen = .ok g := by
  have hends : Checked.Ends (fun _ => True) (fun _ => False) (Term.inOrder (outputs.items ++ screen.toList)) :=
    Checked.ends_foldlM (B := fun _ => True) (fun t _ order _ => Walk.ends_visit_of_depth
      (fun _ _ => Term.depth_of_same) (fun _ _ => Term.depth_lt) (List.forall_mem_nil _)) trivial
  cases hterms : Term.inOrder (outputs.items ++ screen.toList) with
  | ok terms => exact ⟨_, Checked.bind_eq_ok.2 ⟨terms, hterms, rfl⟩⟩
  | error chain =>
    rw [hterms] at hends
    exact hends.elim

/-- Whatever outputs and screen depend on has a node. -/
theorem holds_of_reached (h : of? outputs screen = .ok g) {t : Term}
    (ht : Walk.Reached Term.dependencies (outputs.items ++ screen.toList) t) :
    ∃ (node : Nat) (t' : Term), g.terms[node]? = some t' ∧ t'.same t = true := by
  induction ht with
  | root hroot =>
    rcases List.mem_append.1 hroot with hroot | hroot
    · obtain ⟨output, ho, rfl⟩ := List.mem_map.1 hroot
      obtain ⟨n, -, -, hn⟩ := Checked.exists_right (outputs_spec h) ho
      exact ⟨n.2, hn⟩
    · cases screen with
      | none => cases hroot
      | some s =>
        obtain ⟨node, t', -, ht', hsame⟩ := screen_spec h
        exact ⟨node, t', ht', List.mem_singleton.1 hroot ▸ hsame⟩
  | step _ hd ih =>
    obtain ⟨node, t', ht', hsame⟩ := ih
    obtain ⟨dep, hdep, hsame⟩ := Term.exists_dependency_of_same ((Term.same_comm _ _).trans hsame) hd
    obtain ⟨r, hr, rfl⟩ := List.mem_map.1 hdep
    obtain ⟨e, -, hstands⟩ := Checked.exists_right (reads h ht') hr
    obtain ⟨t'', ht'', hsame'⟩ := hstands.term
    exact ⟨e.node, t'', ht'', Term.same_trans _ _ _ hsame' ((Term.same_comm _ _).trans hsame)⟩

/-- The class of a node's term. -/
def classOf (g : TermGraph) (node : Fin g.terms.size) : Quotient Term.classes := Quotient.mk _ g.terms[node]

/-- The nodes stand for the classes of the terms that outputs and screen depend on. -/
theorem bijOn_classOf (h : of? outputs screen = .ok g) : Set.BijOn g.classOf Set.univ
    (Quotient.mk Term.classes '' {t | Walk.Reached Term.dependencies (outputs.items ++ screen.toList) t}) := by
  have hget (node : Fin g.terms.size) : g.terms[node.1]? = some g.terms[node] := Array.getElem?_eq_getElem node.2
  refine ⟨fun node _ => ?_, fun node _ node' _ heq => ?_, ?_⟩
  · obtain ⟨terms, hterms, hg, -⟩ := of?_eq_ok h
    refine ⟨g.terms[node], Walk.order_reached hterms _ ?_, rfl⟩
    rw [← hg]
    exact Array.mem_toList_iff.2 (Array.mem_of_getElem? (hget node))
  · exact Fin.ext (node_unique h (hget node) (hget node') (Quotient.exact heq))
  · rintro _ ⟨t, ht, rfl⟩
    obtain ⟨node, t', ht', hsame⟩ := holds_of_reached h ht
    obtain ⟨hlt, rfl⟩ := Array.getElem?_eq_some_iff.1 ht'
    exact ⟨⟨node, hlt⟩, trivial, Quotient.sound hsame⟩

/-- The graph of some outputs and perhaps a screen can be built, and has one node for each class
of equal terms that they depend on. The edges of a node are the readings of its term, each leading
to a smaller node that holds what is read. Every output keeps its name, the screen is found, and
every node is one of them or is read. -/
theorem graph_is_exact (outputs : Named Term) (screen : Option Term) : ∃ g, of? outputs screen = .ok g ∧
    Set.BijOn g.classOf Set.univ
      (Quotient.mk Term.classes '' {t | Walk.Reached Term.dependencies (outputs.items ++ screen.toList) t}) ∧
    (∀ node t, g.terms[node]? = some t → List.Forall₂ (g.Stands node) t.readings (g.edgesOf node)) ∧
    List.Forall₂ (fun o n => n.1 = o.1 ∧ ∃ t, g.terms[n.2]? = some t ∧ t.same o.2 = true) outputs g.outputs ∧
    (∀ s, screen = some s → ∃ node t, g.screen = some node ∧ g.terms[node]? = some t ∧ t.same s = true) ∧
    (screen = none → g.screen = none) ∧
    ∀ node < g.size, g.isRoot node = true ∨
      ∃ reader, node < reader ∧ reader < g.size ∧ ∃ e ∈ g.edgesOf reader, e.node = node := by
  obtain ⟨g, h⟩ := exists_of? outputs screen
  refine ⟨g, h, bijOn_classOf h, fun node t ht => reads h ht, outputs_spec h, ?_, ?_, fun node hn => isRoot_or_read h hn⟩
  · rintro s rfl
    exact screen_spec h
  · rintro rfl
    exact screen_none h

end TermGraph
end AsOf
