import AsOf.Proofs.Built
import AsOf.Proofs.Graph.Once
import AsOf.Proofs.Meaning

/-!
# What a computed node reads

In the graph of a pipeline the readings of a computed node go to one node for its mask, or
for the existence of assets if it has none, and to one node for each of its inputs. All of
them come before the node, and they hold what is read.

* `TermGraph.exists_reads`: the nodes that are read, and what they are in every world.
-/
namespace AsOf

namespace TermGraph

variable {outputs : Named Term} {screen : Option Term} {g : TermGraph} {node : Nat} {t : Term}

theorem isLoadable_of_isGiven (ht : g.terms[node]? = some t) (hg : g.isGiven node t = true) :
    t.isLoadable = true := by
  rw [isGiven, Bool.or_eq_true, beq_iff_eq] at hg
  rw [Term.isLoadable]
  rcases hg with hn | hc
  · rw [kind_of_index? hn ht]
    rfl
  · rw [Term.column?] at hc
    cases hk : t.kind <;> rw [hk] at hc <;> first | rfl | cases hc

/-- Before a node, another one holds a term. -/
structure HoldsBefore (g : TermGraph) (node : Nat) (t : Term) (k : Nat) : Prop where
  lt : k < node
  term : ∃ t', g.terms[k]? = some t' ∧ t'.same t = true

/-- What a computed node is: its term over one node for its mask and those for its inputs. -/
structure Reads (g : TermGraph) (node : Nat) (t : Term) (mask : Nat) (inputs : List Nat) : Prop where
  holds_mask : g.HoldsBefore node (t.mask.getD Term.assetExists) mask
  holds_inputs : List.Forall₂ (g.HoldsBefore node) t.inputs inputs
  strand_eq : ∀ w, g.strand w node = ⟨t.missing.dtype, fun r _ =>
    t.rowAt? w [g.strand w mask] (inputs.map (g.strand w)) r⟩

theorem split_edges {inputs : List Term} {mask : Term} {extra : UInt64} {es : List Edge}
    (h : List.Forall₂ (g.Stands node) (inputs.map (Term.Reading.mk · extra false) ++ [Term.Reading.mk mask 0 true]) es) :
    ∃ k ks, g.HoldsBefore node mask k ∧ List.Forall₂ (g.HoldsBefore node) inputs ks ∧
      (es.filter (·.isMask == true)).map Edge.node = [k] ∧ (es.filter (·.isMask == false)).map Edge.node = ks := by
  induction inputs generalizing es with
  | nil =>
    obtain ⟨e, _, he, hnil, rfl⟩ := List.forall₂_cons_left_iff.1 h
    obtain rfl := List.forall₂_nil_left_iff.1 hnil
    refine ⟨e.node, [], ⟨he.lt, he.term⟩, .nil, ?_, ?_⟩
    · rw [List.filter_cons_of_pos (by rw [he.isMask]; rfl)]
      rfl
    · rw [List.filter_cons_of_neg (by rw [he.isMask]; exact Bool.false_ne_true)]
      rfl
  | cons t inputs ih =>
    obtain ⟨e, es, he, hrest, rfl⟩ := List.forall₂_cons_left_iff.1 h
    obtain ⟨k, ks, hk, hks, hmasks, hinputs⟩ := ih hrest
    refine ⟨k, e.node :: ks, hk, .cons ⟨he.lt, he.term⟩ hks, ?_, ?_⟩
    · rw [List.filter_cons_of_neg (by rw [he.isMask]; exact Bool.false_ne_true)]
      exact hmasks
    · rw [List.filter_cons_of_pos (by rw [he.isMask]; rfl), List.map_cons, hinputs]

/-- A computed node reads one node for its mask and one for each of its inputs. -/
theorem exists_reads (h : of? outputs screen = .ok g) (ht : g.terms[node]? = some t) (hl : t.isLoadable = false) :
    ∃ mask inputs, g.Reads node t mask inputs := by
  obtain ⟨extra, hreadings⟩ := Term.readings_computed hl
  have hreads := reads h ht
  rw [hreadings] at hreads
  obtain ⟨k, ks, hk, hks, hmasks, hinputs⟩ := split_edges hreads
  have hstrands (w : World) (isMask : Bool) : g.strands w node isMask =
      (((g.edgesOf node).filter (·.isMask == isMask)).map Edge.node).map (g.strand w) := List.map_map.symm
  have hgiven : g.isGiven node t = false :=
    Bool.eq_false_iff.2 fun hg => Bool.eq_false_iff.1 hl (isLoadable_of_isGiven ht hg)
  exact ⟨k, ks, hk, hks, fun w => by
    rw [strand_computed ht hgiven (edges_lt h node), hstrands, hstrands, hmasks, hinputs, List.map_singleton]⟩

/-- A loaded node without a mask is the existence of assets or a column. -/
theorem strand_loaded {pipeline : Pipeline} (hg : pipeline.graph = .ok g) (hp : pipeline.Built)
    (ht : g.terms[node]? = some t) (hl : t.isLoadable = true) (hm : t.mask = none) :
    (t = Term.assetExists ∧
      ∀ w, g.strand w node = ⟨.bool, fun r _ => some fun sid => .bool ((w.live r).contains sid)⟩) ∨
    ∃ c, t = Term.ofColumn c ∧ ∀ w, g.strand w node = ⟨c.dtype, fun r p => some (w.known node r p)⟩ := by
  rcases (hp.of_graph hg ht).of_isLoadable hl hm with rfl | ⟨c, rfl⟩
  · exact .inl ⟨rfl, fun w => strand_assetExists ht (index?_of_getElem? (Pipeline.graph_eq_ok hg) ht)⟩
  · refine .inr ⟨c, rfl, fun w => strand_column ht (fun hn => ?_) rfl⟩
    have hkind : Kind.column c = .assetExists := kind_of_index? hn ht
    cases hkind

end TermGraph
end AsOf
