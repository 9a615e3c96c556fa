import AsOf.Graph.Plan
import AsOf.Proofs.Checked

/-!
# How deep a plan goes

The rows of a plan are machine words. Where every edge leads to a smaller node, what a
node is given covers the wrapped sum of what each of its readers has and reads before
its own first row, and a plan that is accepted gives no node more rows than there are
sessions before its first one.

* `Plan.extraRows_spec`: the demand of every edge is met.
* `Plan.of?_spec`: what an accepted plan says.
* `Plan.offset_spec`, `Plan.offset_of_wrap`: where a window begins; beyond the words it
  begins below its own end.
-/
namespace AsOf

namespace Plan

variable {g : TermGraph}

/-! ## Meeting demand -/

theorem size_demand (node : Nat) (extra : Array UInt64) (e : Edge) :
    (demand node extra e).size = extra.size := by
  simp only [demand]
  split
  · exact Array.size_setIfInBounds
  · rfl

theorem getD_setIfInBounds {xs : Array UInt64} {i : Nat} (x : UInt64) (k : Nat) :
    (xs.setIfInBounds i x).getD k 0 = if i = k ∧ i < xs.size then x else xs.getD k 0 := by
  rw [Array.getD_eq_getD_getElem?, Array.getD_eq_getD_getElem?, Array.getElem?_setIfInBounds]
  by_cases h : i = k
  · subst h
    by_cases hi : i < xs.size
    · rw [if_pos rfl, if_pos hi, if_pos ⟨rfl, hi⟩]
      rfl
    · rw [if_pos rfl, if_neg hi, if_neg fun h => hi h.2, Array.getElem?_eq_none (by omega)]
  · rw [if_neg h, if_neg fun h' => h h'.1]

/-- Meeting a demand takes rows from no node, and gives them only where the edge leads. -/
theorem demand_spec (node : Nat) (extra : Array UInt64) (e : Edge) (k : Nat) :
    extra.getD k 0 ≤ (demand node extra e).getD k 0 ∧
      (k ≠ e.node → (demand node extra e).getD k 0 = extra.getD k 0) := by
  simp only [demand]
  split
  · rename_i h
    rw [getD_setIfInBounds]
    constructor
    · split
      · rename_i hk
        rw [← hk.1]
        exact UInt64.le_of_lt h
      · exact UInt64.le_refl _
    · intro hk
      rw [if_neg fun h => hk h.1.symm]
  · exact ⟨UInt64.le_refl _, fun _ => rfl⟩

theorem demand_met {node : Nat} {extra : Array UInt64} {e : Edge} (he : e.node < extra.size) :
    extra.getD node 0 + e.extraRows ≤ (demand node extra e).getD e.node 0 := by
  unfold demand
  by_cases h : extra.getD e.node 0 < extra.getD node 0 + e.extraRows
  · simp only [if_pos h]
    rw [getD_setIfInBounds, if_pos ⟨rfl, he⟩]
    exact UInt64.le_refl _
  · simp only [if_neg h]
    exact UInt64.not_lt.1 h

/-- Meeting the demands of all edges of a node that lead elsewhere. -/
theorem foldl_demand (node : Nat) {es : List Edge} (hlt : ∀ e ∈ es, e.node < node) (extra : Array UInt64)
    (hn : node < extra.size) :
    (es.foldl (demand node) extra).size = extra.size ∧
      (∀ k, extra.getD k 0 ≤ (es.foldl (demand node) extra).getD k 0) ∧
      (∀ k, node ≤ k → (es.foldl (demand node) extra).getD k 0 = extra.getD k 0) ∧
      ∀ e ∈ es, extra.getD node 0 + e.extraRows ≤ (es.foldl (demand node) extra).getD e.node 0 := by
  induction es generalizing extra with
  | nil => exact ⟨rfl, fun _ => UInt64.le_refl _, fun _ _ => rfl, fun _ he => nomatch he⟩
  | cons e es ih =>
    have hd := size_demand node extra e
    have hen := hlt e List.mem_cons_self
    obtain ⟨hs, hle, heq, hmet⟩ := ih (fun e he => hlt e (List.mem_cons_of_mem _ he))
      (demand node extra e) (by omega)
    have hsame : (demand node extra e).getD node 0 = extra.getD node 0 :=
      (demand_spec node extra e node).2 (by omega)
    refine ⟨hs.trans hd, fun k => UInt64.le_trans (demand_spec node extra e k).1 (hle k),
      fun k hk => (heq k hk).trans ((demand_spec node extra e k).2 (by omega)), ?_⟩
    intro e' he'
    rcases List.mem_cons.1 he' with rfl | he'
    · exact UInt64.le_trans (demand_met (by omega)) (hle _)
    · have := hmet e' he'
      rwa [hsame] at this

/-- Where every edge leads to a smaller node, every demand is met. -/
theorem extraRows_spec (hlt : ∀ node, ∀ e ∈ g.edgesOf node, e.node < node) :
    (extraRows g).size = g.size ∧ ∀ node < g.size, ∀ e ∈ g.edgesOf node,
      (extraRows g).getD node 0 + e.extraRows ≤ (extraRows g).getD e.node 0 := by
  have main (nodes : List Nat) (done : Nat → Prop) (extra : Array UInt64)
      (hs : extra.size = g.size) (hn : ∀ n ∈ nodes, n < g.size) (hdesc : nodes.Pairwise (· > ·))
      (hbelow : ∀ n ∈ nodes, ∀ m, done m → n < m)
      (hdone : ∀ m, done m → ∀ e ∈ g.edgesOf m, extra.getD m 0 + e.extraRows ≤ extra.getD e.node 0) :
      let final := nodes.foldl (fun extra node => (g.edgesOf node).foldl (demand node) extra) extra
      final.size = g.size ∧ ∀ m, done m ∨ m ∈ nodes → ∀ e ∈ g.edgesOf m,
        final.getD m 0 + e.extraRows ≤ final.getD e.node 0 := by
    induction nodes generalizing done extra with
    | nil => exact ⟨hs, fun m hm => hdone m (hm.resolve_right (nomatch ·))⟩
    | cons n nodes ih =>
      obtain ⟨hbig, hdesc⟩ := List.pairwise_cons.1 hdesc
      have hns := hn n List.mem_cons_self
      obtain ⟨hs', hle, heq, hmet⟩ := foldl_demand n (hlt n) extra (by omega)
      have := ih (fun m => done m ∨ m = n) ((g.edgesOf n).foldl (demand n) extra) (hs'.trans hs)
        (fun m hm => hn m (List.mem_cons_of_mem _ hm)) hdesc
        (fun m hm k hk => by
          rcases hk with hk | rfl
          · exact hbelow m (List.mem_cons_of_mem _ hm) k hk
          · exact hbig m hm)
        (fun m hm e he => by
          rcases hm with hm | rfl
          · rw [heq m (Nat.le_of_lt (hbelow n List.mem_cons_self m hm))]
            exact UInt64.le_trans (hdone m hm e he) (hle _)
          · rw [heq m (Nat.le_refl _)]
            exact hmet e he)
      refine ⟨this.1, fun m hm => this.2 m ?_⟩
      rcases hm with hm | hm
      · exact .inl (.inl hm)
      · rcases List.mem_cons.1 hm with rfl | hm
        · exact .inl (.inr rfl)
        · exact .inr hm
  have := main (List.range g.size).reverse (fun _ => False) (Array.replicate g.size 0) (by simp)
    (fun n hn => by simpa using hn) (by rw [List.pairwise_reverse]; exact List.pairwise_lt_range)
    (fun _ _ _ h => h.elim) (fun _ h => h.elim)
  exact ⟨this.1, fun node hn => this.2 node (.inr (by simpa using hn))⟩

/-! ## Accepted plans -/

/-- The deeper of the deepest node so far and one more. -/
def deeper (best : Option (Nat × UInt64)) (x : UInt64 × Nat) : Option (Nat × UInt64) :=
  match best with
  | some (_, most) => if most < x.1 then some (x.2, x.1) else best
  | none => some (x.2, x.1)

theorem deepest?_eq (extra : Array UInt64) : deepest? extra = extra.toList.zipIdx.foldl deeper none := rfl

theorem deepest?_spec {extra : Array UInt64} {k : Nat} (hk : k < extra.size) :
    ∃ node rows, deepest? extra = some (node, rows) ∧ extra.getD k 0 ≤ rows := by
  have main (xs : List (UInt64 × Nat)) (best : Option (Nat × UInt64)) :
      (∀ b, best = some b → ∃ b', xs.foldl deeper best = some b' ∧ b.2 ≤ b'.2) ∧
        ∀ x ∈ xs, ∃ b', xs.foldl deeper best = some b' ∧ x.1 ≤ b'.2 := by
    induction xs generalizing best with
    | nil => exact ⟨fun b h => ⟨b, h, UInt64.le_refl _⟩, fun _ h => absurd h List.not_mem_nil⟩
    | cons x xs ih =>
      obtain ⟨rows, node⟩ := x
      cases best with
      | none =>
        obtain ⟨hb, hx⟩ := ih (some (node, rows))
        refine ⟨by rintro _ ⟨⟩, fun x hx' => ?_⟩
        rcases List.mem_cons.1 hx' with rfl | hx'
        · exact hb _ rfl
        · exact hx x hx'
      | some b =>
        obtain ⟨n, most⟩ := b
        rw [List.foldl_cons]
        simp only [deeper]
        by_cases hlt : most < rows
        · rw [if_pos hlt]
          obtain ⟨hb, hx⟩ := ih (some (node, rows))
          obtain ⟨b', hb', hle⟩ := hb _ rfl
          refine ⟨fun b e => ?_, fun x hx' => ?_⟩
          · obtain rfl := Option.some.inj e
            exact ⟨b', hb', UInt64.le_trans (UInt64.le_of_lt hlt) hle⟩
          · rcases List.mem_cons.1 hx' with rfl | hx'
            · exact ⟨b', hb', hle⟩
            · exact hx x hx'
        · rw [if_neg hlt]
          obtain ⟨hb, hx⟩ := ih (some (n, most))
          refine ⟨hb, fun x hx' => ?_⟩
          rcases List.mem_cons.1 hx' with rfl | hx'
          · obtain ⟨b', hb', hle⟩ := hb _ rfl
            exact ⟨b', hb', UInt64.le_trans (UInt64.not_lt.1 hlt) hle⟩
          · exact hx x hx'
  have hmem : (extra.getD k 0, k) ∈ extra.toList.zipIdx := by
    rw [List.mem_zipIdx_iff_getElem?, Array.getElem?_toList, Array.getD_eq_getD_getElem?,
      Array.getElem?_eq_getElem hk]
    rfl
  obtain ⟨⟨node, rows⟩, h, hle⟩ := (main _ none).2 _ hmem
  exact ⟨node, rows, (deepest?_eq extra).trans h, hle⟩

/-- An accepted plan lies in the calendar, and no node goes back before its beginning. -/
theorem of?_spec {sessions first last : Nat} {p : Plan} (h : of? g sessions first last = .ok p) :
    p = ⟨g, extraRows g, levels g⟩ ∧ first ≤ last ∧ last < sessions ∧
      ∀ node, (p.extraOf node).toNat ≤ first := by
  unfold of? at h
  split at h
  · cases h
  · rename_i hr
    simp only [Bool.or_eq_true, decide_eq_true_eq, not_or, Nat.not_lt, Nat.not_le] at hr
    have hp : p = ⟨g, extraRows g, levels g⟩ := by
      cases hd : deepest? (extraRows g) with
      | none =>
        simp only [hd] at h
        exact (Except.ok.inj h).symm
      | some b =>
        simp only [hd] at h
        split at h
        · cases h
        · exact (Except.ok.inj h).symm
    refine ⟨hp, hr.1, hr.2, fun node => ?_⟩
    rw [hp]
    show ((extraRows g).getD node 0).toNat ≤ first
    by_cases hn : node < (extraRows g).size
    · obtain ⟨n, rows, hd, hle⟩ := deepest?_spec hn
      simp only [hd] at h
      split at h
      · cases h
      · rename_i hf
        have := UInt64.le_iff_toNat_le.1 hle
        omega
    · rw [Array.getD_eq_getD_getElem?, Array.getElem?_eq_none (by omega)]
      exact Nat.zero_le _

theorem extraOf_le_maxExtra {p : Plan} (node : Nat) : p.extraOf node ≤ p.maxExtra := by
  have main (xs : List UInt64) (m : UInt64) : m ≤ xs.foldl max m ∧ ∀ x ∈ xs, x ≤ xs.foldl max m := by
    induction xs generalizing m with
    | nil => exact ⟨UInt64.le_refl _, fun _ h => nomatch h⟩
    | cons x xs ih =>
      obtain ⟨hm, hx⟩ := ih (max m x)
      refine ⟨UInt64.le_trans ?_ hm, fun y hy => ?_⟩
      · show m ≤ ite _ _ _
        split
        · assumption
        · exact UInt64.le_refl _
      · rcases List.mem_cons.1 hy with rfl | hy
        · refine UInt64.le_trans ?_ hm
          show y ≤ ite _ _ _
          split
          · exact UInt64.le_refl _
          · rename_i h
            exact UInt64.le_of_lt (UInt64.not_le.1 h)
        · exact hx y hy
  rw [maxExtra, ← Array.foldl_toList]
  by_cases hn : node < p.extra.size
  · refine (main _ 0).2 _ ?_
    rw [extraOf, Array.getD_eq_getD_getElem?, Array.getElem?_eq_getElem hn, Array.mem_toList_iff]
    exact Array.getElem_mem hn
  · rw [extraOf, Array.getD_eq_getD_getElem?, Array.getElem?_eq_none (by omega)]
    exact UInt64.zero_le

theorem maxExtra_le {p : Plan} {n : Nat} (h : ∀ node, (p.extraOf node).toNat ≤ n) :
    p.maxExtra.toNat ≤ n := by
  have main (xs : List UInt64) (m : UInt64) (hm : m.toNat ≤ n) (hx : ∀ x ∈ xs, x.toNat ≤ n) :
      (xs.foldl max m).toNat ≤ n := by
    induction xs generalizing m with
    | nil => exact hm
    | cons x xs ih =>
      refine ih (max m x) ?_ fun y hy => hx y (List.mem_cons_of_mem _ hy)
      show (ite _ _ _ : UInt64).toNat ≤ n
      split
      · exact hx x List.mem_cons_self
      · exact hm
  rw [maxExtra, ← Array.foldl_toList]
  refine main _ _ (Nat.zero_le _) fun x hx => ?_
  obtain ⟨k, hk⟩ := List.getElem?_of_mem hx
  rw [Array.getElem?_toList] at hk
  have := h k
  rw [extraOf, Array.getD_eq_getD_getElem?, hk] at this
  exact this

/-! ## Where windows begin -/

/-- A demand that fits into a word is met as it would be by natural numbers. -/
theorem offset_spec {a b rows : UInt64} (h : a + rows ≤ b) (hw : a.toNat + rows.toNat < 0x10000000000000000) :
    a.toNat + rows.toNat ≤ b.toNat ∧ (b - a - rows).toNat = b.toNat - a.toNat - rows.toNat := by
  have hle := UInt64.le_iff_toNat_le.1 h
  rw [UInt64.toNat_add, Nat.mod_eq_of_lt hw] at hle
  have hab : (b - a).toNat = b.toNat - a.toNat :=
    UInt64.toNat_sub_of_le _ _ (UInt64.le_iff_toNat_le.2 (by omega))
  refine ⟨hle, ?_⟩
  rw [UInt64.toNat_sub_of_le _ _ (UInt64.le_iff_toNat_le.2 (by omega)), hab]

/-- A demand beyond the words puts the first row of a window below its last. -/
theorem offset_of_wrap {a b rows : UInt64} (h : a + rows ≤ b) (hw : 0x10000000000000000 ≤ a.toNat + rows.toNat) :
    b.toNat < a.toNat + (b - a - rows).toNat ∧ (b - a - rows).toNat ≤ b.toNat := by
  rw [UInt64.le_iff_toNat_le] at h
  simp only [UInt64.toNat_add, UInt64.toNat_sub] at h ⊢
  have := a.toNat_lt
  have := b.toNat_lt
  have := rows.toNat_lt
  omega

/-- Where the first window ends does not depend on how long it is. -/
theorem offset_add_window (a b window : UInt64) :
    (b - a - (window - 1) + window).toNat = (0x10000000000000000 - a.toNat + b.toNat + 1) % 0x10000000000000000 := by
  have e : b - a - (window - 1) + window = b - a + 1 := by grind
  rw [e, UInt64.toNat_add, UInt64.toNat_sub]
  show ((0x10000000000000000 - a.toNat + b.toNat) % 0x10000000000000000 + 1) % 0x10000000000000000 = _
  omega

end Plan
end AsOf
