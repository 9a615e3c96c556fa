import AsOf.Proofs.Graph.Order

/-!
# Every term once

A walk lists a node only if it does not hold one that is the same, and what a node depends
on is never the node itself, as its paths are shorter. So the graph of a pipeline holds each
of its terms once.

* `Walk.order_apart`: no two nodes in order are the same.
* `TermGraph.index?_of_getElem?`: a term of a graph is found at its own node.
* `TermGraph.node_unique`: and at no other.
* `Term.exists_dependency_of_same`: terms that are the same read the same.
-/
namespace AsOf

namespace Walk

variable {N : Type} [BEq N] {dependencies : N → List N} {depth : N → Nat}

/-- No two nodes are the same. -/
def Apart (order : List N) : Prop := order.Pairwise fun a b => (a == b) = false

/-- What is added behind an order is less deep than a bound, and keeps the nodes apart. -/
structure Adds (depth : N → Nat) (bound : Nat) (order order' : List N) : Prop where
  added : ∃ rest, order' = order ++ rest ∧ ∀ n ∈ rest, depth n < bound
  apart : Apart order → Apart order'

theorem Adds.refl (bound : Nat) (order : List N) : Adds depth bound order order :=
  ⟨⟨[], (List.append_nil order).symm, fun _ hn => absurd hn List.not_mem_nil⟩, id⟩

theorem Adds.trans {bound : Nat} {a b c : List N} (hab : Adds depth bound a b) (hbc : Adds depth bound b c) :
    Adds depth bound a c := by
  obtain ⟨⟨xs, rfl, hxs⟩, habp⟩ := hab
  obtain ⟨⟨ys, rfl, hys⟩, hbcp⟩ := hbc
  exact ⟨⟨xs ++ ys, List.append_assoc .., List.forall_mem_append.2 ⟨hxs, hys⟩⟩, hbcp ∘ habp⟩

theorem Adds.mono {a b : Nat} (hab : a ≤ b) {order order' : List N} (h : Adds depth a order order') :
    Adds depth b order order' := by
  obtain ⟨⟨rest, he, hr⟩, hp⟩ := h
  exact ⟨⟨rest, he, fun n hn => Nat.lt_of_lt_of_le (hr n hn) hab⟩, hp⟩

/-- A visit adds its node and nodes that are less deep. -/
theorem visit_adds (hcomm : ∀ a b : N, (a == b) = (b == a)) (hsame : ∀ a b : N, (a == b) = true → depth a = depth b)
    (hdepth : ∀ n, ∀ dep ∈ dependencies n, depth dep < depth n) {bound : Nat} {path order order' : List N}
    {node : N} (h : visit dependencies bound path order node = .ok order') :
    Adds depth (depth node + 1) order order' := by
  induction bound generalizing path order order' node with
  | zero =>
    obtain rfl := Except.ok.inj h
    exact .refl ..
  | succ bound ih =>
    rw [visit] at h
    split at h
    · obtain rfl := Except.ok.inj h
      exact .refl ..
    · rename_i hnew
      split at h
      · cases h
      · obtain ⟨mid, hmid, h⟩ := Checked.bind_eq_ok.1 h
        obtain rfl := Except.ok.inj h
        have hdeps : Adds depth (depth node) order mid :=
          Checked.foldlM_keeps (.refl ..) (fun dep hd _ _ hadds hv => hadds.trans ((ih hv).mono (hdepth node dep hd)))
            hmid
        obtain ⟨⟨rest, rfl, hrest⟩, hapart⟩ := hdeps
        have hne : ∀ n ∈ order ++ rest, (n == node) = false := by
          intro n hn
          rcases List.mem_append.1 hn with hn | hn
          · rw [List.contains_eq_any_beq, List.any_eq_true] at hnew
            exact Bool.eq_false_iff.2 fun he => hnew ⟨n, hn, (hcomm node n).trans he⟩
          · exact Bool.eq_false_iff.2 fun he => Nat.ne_of_lt (hrest n hn) (hsame n node he)
        refine ⟨⟨rest ++ [node], List.append_assoc .., List.forall_mem_append.2 ⟨fun n hn => ?_, fun n hn => ?_⟩⟩,
          fun hp => List.pairwise_append.2 ⟨hapart hp, List.pairwise_singleton _ _, fun a ha b hb => ?_⟩⟩
        · exact Nat.lt_succ_of_lt (hrest n hn)
        · rw [List.mem_singleton.1 hn]
          exact Nat.lt_succ_self _
        · rw [List.mem_singleton.1 hb]
          exact hne a ha

/-- No two nodes in order are the same. -/
theorem order_apart (hcomm : ∀ a b : N, (a == b) = (b == a)) (hsame : ∀ a b : N, (a == b) = true → depth a = depth b)
    (hdepth : ∀ n, ∀ dep ∈ dependencies n, depth dep < depth n) {bound : Nat} {roots nodes : List N}
    (h : order dependencies bound roots = .ok nodes) : Apart nodes := by
  refine Checked.foldlM_keeps (P := Apart) List.Pairwise.nil (fun n _ order order' ho hv => ?_) h
  exact (visit_adds hcomm hsame hdepth hv).apart ho

end Walk

namespace Term

theorem isLoadable_of_same {a b : Term} (h : a.same b = true) : a.isLoadable = b.isLoadable := by
  have hk : a.kind.same b.kind = true := (Head.of_same (head_of_same h)).1
  unfold isLoadable
  generalize a.kind = k at *
  generalize b.kind = k' at *
  cases k <;> cases k' <;> first | rfl | exact absurd hk Bool.false_ne_true

mutual
theorem height_of_same : (a b : Term) → a.same b = true → a.height = b.height
  | mk h is m, mk h' is' m', e => by
    simp only [same, Bool.and_eq_true] at e
    rw [height, height, heights_of_same is is' e.1.2, maskHeight_of_same m m' e.2]

theorem heights_of_same : (as bs : List Term) → sameAll as bs = true → heights as = heights bs
  | [], [], _ => rfl
  | a :: as, b :: bs, e => by
    simp only [sameAll, Bool.and_eq_true] at e
    rw [heights, heights, height_of_same a b e.1, heights_of_same as bs e.2]

theorem maskHeight_of_same : (a b : Option Term) → sameMask a b = true → maskHeight a = maskHeight b
  | none, none, _ => rfl
  | some a, some b, e => height_of_same a b e
end

theorem depth_of_same {a b : Term} (h : a.same b = true) : a.depth = b.depth := by
  rw [depth, depth, isLoadable_of_same h, height_of_same a b h]

/-! ### What they read -/

theorem readings_computed {t : Term} (h : t.isLoadable = false) : ∃ extra, t.readings =
    t.inputs.map (Reading.mk · extra false) ++ [Reading.mk (t.mask.getD assetExists) 0 true] := by
  rw [readings, if_neg (Bool.eq_false_iff.1 h)]
  exact ⟨_, rfl⟩

theorem mem_dependencies {t dep : Term} (h : t.isLoadable = false) :
    dep ∈ t.dependencies ↔ dep ∈ t.inputs ∨ dep = t.mask.getD assetExists := by
  obtain ⟨extra, hreadings⟩ := readings_computed h
  rw [dependencies, hreadings, List.map_append, List.map_map, List.mem_append, List.mem_map]
  refine or_congr ⟨?_, fun hd => ⟨dep, hd, rfl⟩⟩ List.mem_singleton
  rintro ⟨t', ht', rfl⟩
  exact ht'

variable {t u : Term}

theorem forall₂_of_sameAll {ts us : List Term} (h : sameAll ts us = true) :
    List.Forall₂ (fun t u => t.same u = true) ts us := by
  induction ts generalizing us with
  | nil =>
    cases us with
    | nil => exact .nil
    | cons u us => cases h
  | cons t ts ih =>
    cases us with
    | nil => cases h
    | cons u us =>
      rw [sameAll, Bool.and_eq_true] at h
      exact .cons h.1 (ih h.2)

theorem inputs_of_same (h : t.same u = true) : List.Forall₂ (fun t u => t.same u = true) t.inputs u.inputs := by
  obtain ⟨head, inputs, mask⟩ := t
  obtain ⟨head', inputs', mask'⟩ := u
  simp only [same, Bool.and_eq_true] at h
  exact forall₂_of_sameAll h.1.2

/-- What masks a term, or else the existence of assets. -/
theorem getD_mask_of_same (h : t.same u = true) :
    (t.mask.getD assetExists).same (u.mask.getD assetExists) = true := by
  obtain ⟨head, inputs, mask⟩ := t
  obtain ⟨head', inputs', mask'⟩ := u
  simp only [same, Bool.and_eq_true] at h
  cases mask <;> cases mask' <;> first | exact h.2 | cases h.2

/-- What a term reads is the same as something that a term reads which is the same. -/
theorem exists_dependency_of_same (h : t.same u = true) {dep : Term} (hd : dep ∈ t.dependencies) :
    ∃ dep' ∈ u.dependencies, dep.same dep' = true := by
  by_cases hl : t.isLoadable = true
  · rw [dependencies, readings, if_pos hl] at hd
    cases hd
  · have hl := Bool.eq_false_iff.2 hl
    rcases (mem_dependencies hl).1 hd with hd | rfl
    · obtain ⟨dep', hd', hsame⟩ := Checked.exists_right (inputs_of_same h) hd
      exact ⟨dep', (mem_dependencies (isLoadable_of_same h ▸ hl)).2 (.inl hd'), hsame⟩
    · exact ⟨_, (mem_dependencies (isLoadable_of_same h ▸ hl)).2 (.inr rfl), getD_mask_of_same h⟩

end Term

namespace TermGraph

variable {outputs : Named Term} {screen : Option Term} {g : TermGraph}

/-- The node of the existence of assets holds that term. -/
theorem same_of_index? {node : Nat} {t : Term} (hn : g.index? Term.assetExists = some node)
    (ht : g.terms[node]? = some t) :
    t.same Term.assetExists = true := by
  obtain ⟨hlt, hp, -⟩ := List.findIdx?_eq_some_iff_getElem.1 hn
  have e : g.terms.toList[node] = t := by
    have := List.getElem?_eq_getElem hlt
    rw [Array.getElem?_toList, ht] at this
    exact (Option.some.inj this).symm
  rwa [e] at hp

theorem kind_of_index? {node : Nat} {t : Term} (hn : g.index? Term.assetExists = some node)
    (ht : g.terms[node]? = some t) :
    t.kind = .assetExists := by
  have hk : t.kind.same .assetExists = true := (Head.of_same (Term.head_of_same (same_of_index? hn ht))).1
  cases hkind : t.kind <;> rw [hkind] at hk <;> first | rfl | cases hk

/-- A term of a graph is found at its own node. -/
theorem index?_of_getElem? (h : of? outputs screen = .ok g) {node : Nat} {t : Term} (ht : g.terms[node]? = some t) :
    g.index? t = some node := by
  obtain ⟨terms, hterms, hg, -⟩ := of?_eq_ok h
  have hapart : Walk.Apart g.terms.toList :=
    hg ▸ Walk.order_apart Term.same_comm (fun _ _ => Term.depth_of_same) (fun _ _ => Term.depth_lt) hterms
  rw [← Array.getElem?_toList] at ht
  obtain ⟨hlt, rfl⟩ := List.getElem?_eq_some_iff.1 ht
  refine List.findIdx?_eq_some_iff_getElem.2 ⟨hlt, Term.same_refl _, fun j hj => ?_⟩
  have := List.pairwise_iff_getElem.1 hapart j node (Nat.lt_trans hj hlt) hlt hj
  exact Bool.eq_false_iff.1 this

/-- Terms that are the same are at one place. -/
theorem index?_of_same (g : TermGraph) {t t' : Term} (hs : t.same t' = true) : g.index? t = g.index? t' := by
  have hsame : (fun item => item == t) = fun item => item == t' := funext fun item =>
    Bool.eq_iff_iff.2 ⟨fun he => Term.same_trans item t t' he hs,
      fun he => Term.same_trans item t' t he ((Term.same_comm t' t).trans hs)⟩
  exact congrArg (g.terms.toList.findIdx? ·) hsame

/-- Nodes that hold terms which are the same are one. -/
theorem node_unique (h : of? outputs screen = .ok g) {node node' : Nat} {t t' : Term} (ht : g.terms[node]? = some t)
    (ht' : g.terms[node']? = some t') (hs : t.same t' = true) : node = node' := by
  have hplace := g.index?_of_same hs
  rw [index?_of_getElem? h ht, index?_of_getElem? h ht'] at hplace
  exact Option.some.inj hplace

end TermGraph
end AsOf
