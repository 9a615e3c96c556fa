import AsOf.Proofs.Graph.Levels
import AsOf.Proofs.Run.Node

/-!
# Computing all levels of a chunk

A `Stage` of a chunk is a workspace before some level: every history in it holds its
strand, and what is below the level is there as long as something may still read it.
Values are released after their last reader and never before, so no reader misses one.

* `Workspace.release_spec`: releasing counts readers down and drops what has none left.
* `Plan.computeLevel_spec`: one level, from what stands below it.
* `Plan.computeAll_spec`: all levels; the roots are there in the end.
-/
namespace AsOf

namespace Workspace

variable {ws : Workspace} {node k : Nat} {h : History}

theorem get?_put (hn : node < ws.size) :
    (ws.put node h).get? k = if k = node then some h else ws.get? k := by
  rw [get?, put, Array.getElem?_setIfInBounds]
  by_cases hk : node = k
  · rw [if_pos hk, if_pos hn, if_pos hk.symm]
    rfl
  · rw [if_neg hk, if_neg (Ne.symm hk)]
    rfl

theorem size_put : (ws.put node h).size = ws.size := Array.size_setIfInBounds

theorem get?_drop : (ws.drop node).get? k = if k = node then none else ws.get? k := by
  rw [get?, drop, Array.getElem?_setIfInBounds]
  by_cases hk : node = k
  · rw [if_pos hk, if_pos hk.symm]
    split <;> rfl
  · rw [if_neg hk, if_neg (Ne.symm hk)]
    rfl

theorem size_drop : (ws.drop node).size = ws.size := Array.size_setIfInBounds

/-- Putting histories changes nothing but their nodes. -/
theorem foldl_put {pairs : List (Nat × History)} (hn : ∀ x ∈ pairs, x.1 < ws.size) :
    let ws' := pairs.foldl (fun ws x => ws.put x.1 x.2) ws
    ws'.size = ws.size ∧ (∀ k h, ws'.get? k = some h → (k, h) ∈ pairs ∨ ws.get? k = some h) ∧
      (∀ x ∈ pairs, (ws'.get? x.1).isSome = true) ∧
      ∀ k, k ∉ pairs.map Prod.fst → ws'.get? k = ws.get? k := by
  induction pairs generalizing ws with
  | nil => exact ⟨rfl, fun _ _ h => .inr h, fun _ hx => (nomatch hx), fun _ _ => rfl⟩
  | cons x pairs ih =>
    obtain ⟨node, h⟩ := x
    have hnode : node < ws.size := hn (node, h) List.mem_cons_self
    obtain ⟨hs, hfrom, hto, helse⟩ := @ih (ws.put node h) fun x hx => by
      rw [size_put]
      exact hn x (List.mem_cons_of_mem _ hx)
    refine ⟨hs.trans size_put, fun k h' hk => ?_, fun x hx => ?_, fun k hk => ?_⟩
    · rcases hfrom k h' hk with hmem | hold
      · exact .inl (List.mem_cons_of_mem _ hmem)
      · rw [get?_put hnode] at hold
        split at hold
        · rename_i hkn
          obtain rfl := Option.some.inj hold
          exact .inl (hkn ▸ List.mem_cons_self)
        · exact .inr hold
    · rcases List.mem_cons.1 hx with rfl | hx
      · by_cases hmem : node ∈ pairs.map Prod.fst
        · obtain ⟨y, hy, hyn⟩ := List.mem_map.1 hmem
          have := hto y hy
          rwa [hyn] at this
        · show ((pairs.foldl _ (ws.put node h)).get? node).isSome = true
          rw [helse node hmem, get?_put hnode, if_pos rfl]
          rfl
      · exact hto x hx
    · rw [List.map_cons, List.mem_cons, not_or] at hk
      show (pairs.foldl _ (ws.put node h)).get? k = _
      rw [helse k hk.2, get?_put hnode, if_neg hk.1]

end Workspace

namespace Plan

variable {p : Plan}

/-! ## Releasing -/

section Release

variable (state : Workspace × Array Nat) (node k : Nat)

theorem size_releaseNode : (p.releaseNode state node).1.size = state.1.size := by
  show (ite _ _ _ : Workspace).size = _
  split
  · exact Workspace.size_drop
  · rfl

/-- A node that is released has one reader less left. -/
theorem getD_releaseNode :
    (p.releaseNode state node).2.getD k 0 = state.2.getD k 0 - if node = k then 1 else 0 := by
  show (state.2.modify node (· - 1)).getD k 0 = _
  rw [Array.getD_eq_getD_getElem?, Array.getD_eq_getD_getElem?, Array.getElem?_modify]
  split
  · cases state.2[k]? with
    | none => exact (Nat.zero_sub 1).symm
    | some n => rfl
  · rfl

variable {state node k}

theorem get?_of_releaseNode {h : History} (hk : (p.releaseNode state node).1.get? k = some h) :
    state.1.get? k = some h := by
  change (ite _ _ _ : Workspace).get? k = some h at hk
  split at hk
  · rw [Workspace.get?_drop] at hk
    split at hk
    · cases hk
    · exact hk
  · exact hk

/-- Only the node itself is dropped, and no root and nothing that has readers left. -/
theorem get?_releaseNode
    (hk : k ≠ node ∨ p.graph.isRoot k = true ∨ 0 < (p.releaseNode state node).2.getD k 0) :
    (p.releaseNode state node).1.get? k = state.1.get? k := by
  show (ite _ _ _ : Workspace).get? k = _
  split
  · rename_i hd
    rw [Bool.and_eq_true_iff, decide_eq_true_iff, Bool.not_eq_true'] at hd
    rw [Workspace.get?_drop, if_neg]
    rintro rfl
    rcases hk with hk | hk | hk
    · exact hk rfl
    · rw [hd.2] at hk
      cases hk
    · have hz : (p.releaseNode state k).2.getD k 0 = 0 := by
        show (state.2.modify k (· - 1)).getD k 0 = 0
        rw [Array.getD_eq_getD_getElem?, hd.1]
        rfl
      omega
  · rfl

end Release

/-- Releasing nodes counts down the readers they have left, and drops no root and nothing
that has readers left. -/
theorem foldl_releaseNode (nodes : List Nat) (ws : Workspace) (left : Array Nat) :
    let state := nodes.foldl p.releaseNode (ws, left)
    state.1.size = ws.size ∧ (∀ k, state.2.getD k 0 = left.getD k 0 - nodes.count k) ∧
      (∀ k h, state.1.get? k = some h → ws.get? k = some h) ∧
      ∀ k, p.graph.isRoot k = true ∨ 0 < state.2.getD k 0 → state.1.get? k = ws.get? k := by
  induction nodes generalizing ws left with
  | nil => exact ⟨rfl, fun _ => rfl, fun _ _ h => h, fun _ _ => rfl⟩
  | cons node nodes ih =>
    obtain ⟨hs, hleft, hfrom, hkept⟩ := ih (p.releaseNode (ws, left) node).1 (p.releaseNode (ws, left) node).2
    refine ⟨hs.trans (size_releaseNode ..), fun k => ?_, fun k h hk => get?_of_releaseNode (hfrom k h hk),
      fun k hk => (hkept k hk).trans (get?_releaseNode (.inr (hk.imp_right fun hk => ?_)))⟩
    · show (nodes.foldl p.releaseNode (p.releaseNode (ws, left) node)).2.getD k 0 = _
      rw [hleft, getD_releaseNode, List.count_cons]
      simp only [beq_iff_eq]
      omega
    · have hk : 0 < (nodes.foldl p.releaseNode (p.releaseNode (ws, left) node)).2.getD k 0 := hk
      rw [hleft] at hk
      omega

/-- Releasing a level takes away the readers that stand on it. -/
theorem release_spec {l : Nat} {ws : Workspace} {left : Array Nat}
    (hl : ∀ k, left.getD k 0 = p.pending l k) :
    let state := p.release (p.nodesAt l) (ws, left)
    state.1.size = ws.size ∧ (∀ k, state.2.getD k 0 = p.pending (l + 1) k) ∧
      (∀ k h, state.1.get? k = some h → ws.get? k = some h) ∧
      ∀ k, p.graph.isRoot k = true ∨ 0 < p.pending (l + 1) k → state.1.get? k = ws.get? k := by
  have e : p.release (p.nodesAt l) (ws, left) =
      ((p.nodesAt l).flatMap p.graph.readBy).foldl p.releaseNode (ws, left) := List.foldl_flatMap.symm
  obtain ⟨hs, hleft, hfrom, hkept⟩ :=
    foldl_releaseNode (p := p) ((p.nodesAt l).flatMap p.graph.readBy) ws left
  have hcount (k : Nat) : (((p.nodesAt l).flatMap p.graph.readBy).foldl p.releaseNode
      (ws, left)).2.getD k 0 = p.pending (l + 1) k := by
    rw [hleft, hl, pending_succ, Nat.add_sub_cancel]
  rw [e]
  exact ⟨hs, hcount, hfrom, fun k hk => hkept k (by rwa [hcount])⟩

/-! ## One level -/

/-- A workspace before level `l`, which releases values unless `keep` holds. -/
structure Stage (p : Plan) (c : Chunk) (w : World) (start : Nat) (keep : Prop) (l : Nat) (ws : Workspace) :
    Prop where
  size : ws.size = p.size
  right : ∀ node h, ws.get? node = some h →
    c.Holds start (p.extraOf node) (p.graph.strand w node) h
  /-- Only what is given or below the level is there. -/
  fresh : ∀ node t, p.graph.terms[node]? = some t → (ws.get? node).isSome = true →
    p.graph.isGiven node t = true ∨ p.levelOf node < l
  /-- What may still be read is there. -/
  kept : ∀ node t, p.graph.terms[node]? = some t →
    p.graph.isGiven node t = true ∨ p.levelOf node < l →
    p.graph.isRoot node = true ∨ 0 < p.pending l node ∨ l = 0 ∨ keep → (ws.get? node).isSome = true

/-- What the schedule relies on in a plan. -/
structure Ordered (p : Plan) : Prop where
  sound : p.Sound
  size : p.level.size = p.size
  above : ∀ node < p.size, ∀ dep ∈ p.graph.readBy node, p.levelOf dep < p.levelOf node
  lowest : ∀ node < p.size, p.graph.edgesOf node = [] → p.levelOf node = 0
  /-- What is given reads nothing. -/
  given : ∀ node t, p.graph.terms[node]? = some t → p.graph.isGiven node t = true →
    p.graph.edgesOf node = []
  roots : ∀ node, p.graph.isRoot node = true → node < p.size
  decodes : ∀ (node : Nat) (t : Term) (k : RowKernel), p.graph.terms[node]? = some t →
    t.kind = .custom k → k.Decodes

/-- A plan in a chunk. -/
structure Scheduled (p : Plan) (c : Chunk) (w : World) (start : Nat) : Prop extends p.Ordered where
  covers : c.Covers w start
  deep : ∀ n, (p.extraOf n).toNat ≤ c.history

variable {c : Chunk} {w : World} {start l : Nat} {keep : Prop} {ws : Workspace}

/-- A node on the level finds what it reads. -/
theorem Stage.supplied (hs : p.Scheduled c w start) (hst : p.Stage c w start keep l ws) {node : Nat}
    (hn : node ∈ p.nodesAt l) : p.Supplied c w start ws node := by
  obtain ⟨hlt, hl⟩ := mem_nodesAt.1 hn
  refine ⟨hs.covers, hs.deep, fun e he => ?_⟩
  have hread : e.node ∈ p.graph.readBy node := TermGraph.mem_readBy.2 ⟨e, he, rfl⟩
  have hbelow := hs.above node hlt e.node hread
  have hsize : e.node < p.graph.terms.size := Nat.lt_trans (hs.sound.lt node e he) hlt
  have hsome := hst.kept e.node _ (Array.getElem?_eq_getElem hsize) (.inr (hl ▸ hbelow))
    (.inr (.inl (pending_pos hlt (Nat.le_of_eq hl.symm) hread)))
  obtain ⟨h, hh⟩ := Option.isSome_iff_exists.1 hsome
  exact ⟨h, hh, hst.right _ h hh⟩

/-- What a level computes is what it does not have, and that is what is not given. -/
theorem Stage.mem_missing (hs : p.Scheduled c w start) (hst : p.Stage c w start keep l ws) {node : Nat}
    {t : Term} (ht : p.graph.terms[node]? = some t) :
    node ∈ (p.nodesAt l).filter (fun node => (ws.get? node).isNone) ↔
      p.levelOf node = l ∧ p.graph.isGiven node t = false := by
  have hlt : node < p.size := (Array.getElem?_eq_some_iff.1 ht).1
  rw [List.mem_filter, mem_nodesAt, Option.isNone_iff_eq_none]
  constructor
  · rintro ⟨⟨-, hl⟩, hnone⟩
    refine ⟨hl, Bool.eq_false_iff.2 fun hg => ?_⟩
    have h0 := hs.lowest node hlt (hs.given node t ht hg)
    have hsome := hst.kept node t ht (.inl hg) (.inr (.inr (.inl (hl.symm.trans h0))))
    rw [hnone] at hsome
    cases hsome
  · rintro ⟨hl, hg⟩
    refine ⟨⟨hlt, hl⟩, Option.eq_none_iff_forall_ne_some.2 fun h hh => ?_⟩
    rcases hst.fresh node t ht (by rw [hh]; rfl) with hg' | hl'
    · rw [hg] at hg'
      cases hg'
    · omega

/-- A node with its history. -/
def computeEntry (p : Plan) (c : Chunk) (ws : Workspace) (node : Nat) : Except RunError (Nat × History) :=
  match p.graph.terms[node]? with
  | some t => p.computeNode c ws node t >>= fun h => .ok (node, h)
  | none => .error (.missingDependency "" "")

/-- A level computes an entry for each of its nodes that is not there. -/
theorem computeLevel_eq {level : List Nat} (hn : ∀ node ∈ level, node < p.size) :
    p.computeLevel c ws level =
      (level.filter fun node => (ws.get? node).isNone).mapM (p.computeEntry c ws) >>= fun pairs =>
        .ok (pairs.foldl (fun ws x => ws.put x.1 x.2) ws) := by
  refine congrArg (fun x : Except RunError (List (Nat × History)) => x >>= fun pairs =>
    .ok (pairs.foldl (fun ws x => ws.put x.1 x.2) ws))
    (Checked.filterMapM_eq_mapM fun node hnode => ?_)
  have ht : p.graph.terms[node]? = some _ :=
    Array.getElem?_eq_getElem (hn node (List.mem_filter.1 hnode).1)
  simp only [computeEntry, ht]
  cases p.computeNode c ws node _ <;> rfl

/-- A level can be computed exactly if each of its nodes that is not there can. -/
theorem exists_computeLevel {level : List Nat} (hn : ∀ node ∈ level, node < p.size) :
    (∃ ws', p.computeLevel c ws level = .ok ws') ↔ ∀ node ∈ level, ws.get? node = none →
      ∀ t, p.graph.terms[node]? = some t → ∃ h, p.computeNode c ws node t = .ok h := by
  have hentries : (∃ ws', p.computeLevel c ws level = .ok ws') ↔
      ∃ pairs, (level.filter fun node => (ws.get? node).isNone).mapM (p.computeEntry c ws) = .ok pairs := by
    rw [computeLevel_eq hn]
    constructor
    · rintro ⟨ws', h⟩
      obtain ⟨pairs, hpairs, -⟩ := Checked.bind_eq_ok.1 h
      exact ⟨pairs, hpairs⟩
    · rintro ⟨pairs, hpairs⟩
      exact ⟨_, Checked.bind_eq_ok.2 ⟨pairs, hpairs, rfl⟩⟩
  rw [hentries, Checked.exists_mapM]
  constructor
  · intro h node hnode hnone t ht
    obtain ⟨entry, he⟩ := h node (List.mem_filter.2 ⟨hnode, by rw [hnone]; rfl⟩)
    simp only [computeEntry, ht] at he
    obtain ⟨history, hhistory, -⟩ := Checked.bind_eq_ok.1 he
    exact ⟨history, hhistory⟩
  · intro h node hnode
    obtain ⟨hnode, hnone⟩ := List.mem_filter.1 hnode
    have ht : p.graph.terms[node]? = some _ := Array.getElem?_eq_getElem (hn node hnode)
    obtain ⟨history, hhistory⟩ := h node hnode (Option.isNone_iff_eq_none.1 hnone) _ ht
    exact ⟨(node, history), by simp only [computeEntry, ht, hhistory]; rfl⟩

/-- A level that is computed adds the values of its nodes, and changes nothing else. -/
theorem computeLevel_ok {level : List Nat} (hn : ∀ node ∈ level, node < p.size) (hsize : ws.size = p.size)
    {ws' : Workspace} (h : p.computeLevel c ws level = .ok ws') :
    ws'.size = ws.size ∧
      (∀ k history, ws'.get? k = some history → ws.get? k = some history ∨ k ∈ level ∧ ws.get? k = none ∧
        ∃ t, p.graph.terms[k]? = some t ∧ p.computeNode c ws k t = .ok history) ∧
      (∀ k ∈ level, (ws'.get? k).isSome = true) ∧
      ∀ k, k ∉ level ∨ (ws.get? k).isSome = true → ws'.get? k = ws.get? k := by
  rw [computeLevel_eq hn] at h
  obtain ⟨pairs, hpairs, h⟩ := Checked.bind_eq_ok.1 h
  obtain rfl := Except.ok.inj h
  have hpair := Checked.mapM_eq_ok.1 hpairs
  -- an entry is that of a node of the level that is not there
  have hentry {x : Nat × History} (hx : x ∈ pairs) : x.1 ∈ level ∧ ws.get? x.1 = none ∧
      ∃ t, p.graph.terms[x.1]? = some t ∧ p.computeNode c ws x.1 t = .ok x.2 := by
    obtain ⟨node, hnode, hxn⟩ := Checked.exists_left hpair hx
    obtain ⟨hnode, hnone⟩ := List.mem_filter.1 hnode
    have ht : p.graph.terms[node]? = some _ := Array.getElem?_eq_getElem (hn node hnode)
    simp only [computeEntry, ht] at hxn
    obtain ⟨history, hhistory, hxn⟩ := Checked.bind_eq_ok.1 hxn
    obtain rfl := Except.ok.inj hxn
    exact ⟨hnode, Option.isNone_iff_eq_none.1 hnone, _, ht, hhistory⟩
  have hkeys {node : Nat} (hnode : node ∈ level) (hnone : ws.get? node = none) : ∃ x ∈ pairs, x.1 = node := by
    obtain ⟨x, hx, hxn⟩ := Checked.exists_right hpair (List.mem_filter.2 ⟨hnode, by rw [hnone]; rfl⟩)
    have ht : p.graph.terms[node]? = some _ := Array.getElem?_eq_getElem (hn node hnode)
    simp only [computeEntry, ht] at hxn
    obtain ⟨history, -, hxn⟩ := Checked.bind_eq_ok.1 hxn
    obtain rfl := Except.ok.inj hxn
    exact ⟨_, hx, rfl⟩
  obtain ⟨hs, hget, hput, helse⟩ := @Workspace.foldl_put ws pairs fun x hx =>
    hsize.symm ▸ hn x.1 (hentry hx).1
  have hkept (k : Nat) (hk : k ∉ level ∨ (ws.get? k).isSome = true) :
      (pairs.foldl (fun ws x => ws.put x.1 x.2) ws).get? k = ws.get? k := by
    refine helse k fun hmem => ?_
    obtain ⟨x, hx, rfl⟩ := List.mem_map.1 hmem
    obtain ⟨hlevel, hnone, -⟩ := hentry hx
    rcases hk with hk | hk
    · exact hk hlevel
    · rw [hnone] at hk
      cases hk
  refine ⟨hs, fun k history hk => ?_, fun k hk => ?_, hkept⟩
  · rcases hget k history hk with hx | hold
    · exact .inr (hentry hx)
    · exact .inl hold
  · cases hws : ws.get? k with
    | none =>
      obtain ⟨x, hx, rfl⟩ := hkeys hk hws
      exact hput x hx
    | some history =>
      rw [hkept k (.inr (by rw [hws]; rfl)), hws]
      rfl

/-- A level can be computed if all of its nodes can. -/
theorem computeLevel_spec (hs : p.Scheduled c w start) (hst : p.Stage c w start keep l ws) :
    ((∀ node t, p.graph.terms[node]? = some t → p.levelOf node = l →
        p.graph.isGiven node t = false → p.Computable c w start node t) ∧
      ∃ ws', p.computeLevel c ws (p.nodesAt l) = .ok ws' ∧ ws'.size = p.size ∧
        (∀ node h, ws'.get? node = some h →
          c.Holds start (p.extraOf node) (p.graph.strand w node) h) ∧
        (∀ node ∈ p.nodesAt l, (ws'.get? node).isSome = true) ∧
        ∀ node, node ∉ p.nodesAt l → ws'.get? node = ws.get? node) ∨
    ((∃ node t, p.graph.terms[node]? = some t ∧ p.graph.isGiven node t = false ∧
        ¬p.Computable c w start node t) ∧
      ∃ err, p.computeLevel c ws (p.nodesAt l) = .error err) := by
  have hmissing {node : Nat} {t : Term} (ht : p.graph.terms[node]? = some t) :
      (node ∈ p.nodesAt l ∧ ws.get? node = none) ↔ p.levelOf node = l ∧ p.graph.isGiven node t = false := by
    rw [← hst.mem_missing hs ht, List.mem_filter, Option.isNone_iff_eq_none]
  have hnode {node : Nat} {t : Term} (hn : node ∈ p.nodesAt l) (hnone : ws.get? node = none)
      (ht : p.graph.terms[node]? = some t) :=
    computeNode_spec hs.sound ht ((hmissing ht).1 ⟨hn, hnone⟩).2 (hst.supplied hs hn)
      fun k hk => hs.decodes node t k ht hk
  have hlt : ∀ node ∈ p.nodesAt l, node < p.size := fun node hn => (mem_nodesAt.1 hn).1
  cases hlevel : p.computeLevel c ws (p.nodesAt l) with
  | ok ws' =>
    -- all of them can be computed
    have hall := (exists_computeLevel hlt).1 ⟨ws', hlevel⟩
    obtain ⟨hsize, hget, hat, helse⟩ := computeLevel_ok hlt hst.size hlevel
    refine .inl ⟨fun node t ht hl hg => ?_, ws', rfl, hsize.trans hst.size, fun node h hh => ?_, hat,
      fun node hn => helse node (.inl hn)⟩
    · obtain ⟨hn, hnone⟩ := (hmissing ht).2 ⟨hl, hg⟩
      obtain ⟨h, hh⟩ := hall node hn hnone t ht
      rcases hnode hn hnone ht with ⟨hyes, -⟩ | ⟨-, err, herr⟩
      · exact hyes
      · rw [hh] at herr
        cases herr
    · rcases hget node h hh with hold | ⟨hn, hnone, t, ht, hok⟩
      · exact hst.right node h hold
      · rcases hnode hn hnone ht with ⟨-, h', hok', hh'⟩ | ⟨-, err, herr⟩
        · rw [hok] at hok'
          exact Except.ok.inj hok' ▸ hh'
        · rw [hok] at herr
          cases herr
  | error err =>
    -- one of them cannot
    have hnot : ¬∃ ws', p.computeLevel c ws (p.nodesAt l) = .ok ws' := by
      rw [hlevel]
      exact fun ⟨_, h⟩ => nomatch h
    rw [exists_computeLevel hlt] at hnot
    simp only [not_forall] at hnot
    obtain ⟨node, hn, hnone, t, ht, hno⟩ := hnot
    refine .inr ⟨⟨node, t, ht, ((hmissing ht).1 ⟨hn, hnone⟩).2, fun hyes => ?_⟩, err, rfl⟩
    rcases hnode hn hnone ht with ⟨-, h, hok, -⟩ | ⟨hno', -⟩
    · exact hno ⟨h, hok⟩
    · exact hno' hyes

/-! ## All levels -/

/-- The readers left of every node, where they are counted. -/
def Counted (p : Plan) (keep : Prop) (l : Nat) (left : Array Nat) : Prop :=
  ¬keep → ∀ k, left.getD k 0 = p.pending l k

/-- The readers of every node, as they are counted down. -/
theorem getD_readers (hlt : ∀ node, ∀ e ∈ p.graph.edgesOf node, e.node < node) (k : Nat) :
    ((List.range p.size).map p.readers).toArray.getD k 0 = p.readers k := by
  rw [Array.getD_eq_getD_getElem?, List.getElem?_toArray, List.getElem?_map]
  by_cases hk : k < p.size
  · rw [List.getElem?_range hk]
    rfl
  · rw [List.getElem?_eq_none (by rw [List.length_range]; omega), readers, eq_comm]
    refine List.countP_eq_zero.2 fun reader hr hread => hk ?_
    obtain ⟨e, he, rfl⟩ := TermGraph.mem_readBy.1 (List.contains_iff_mem.1 hread)
    exact Nat.lt_trans (hlt reader e he) (List.mem_range.1 hr)

/-- One level of the schedule. -/
def stepLevel (p : Plan) (config : Config) (c : Chunk) (state : Workspace × Array Nat)
    (level : List Nat) : Except RunError (Workspace × Array Nat) := do
  let ws ← p.computeLevel c state.1 level
  return if config.releaseIntermediates then p.release level (ws, state.2) else (ws, state.2)

/-- A workspace with the values of a level beside what was there is a stage of the next level,
as long as nothing is released. -/
theorem Stage.computed (hst : p.Stage c w start keep l ws) {ws' : Workspace} (hsize : ws'.size = p.size)
    (hright : ∀ node h, ws'.get? node = some h → c.Holds start (p.extraOf node) (p.graph.strand w node) h)
    (hat : ∀ node ∈ p.nodesAt l, (ws'.get? node).isSome = true)
    (helse : ∀ node, node ∉ p.nodesAt l → ws'.get? node = ws.get? node) :
    p.Stage c w start keep (l + 1) ws' := by
  refine ⟨hsize, hright, fun node t ht hsome => ?_, fun node t ht hb hr => ?_⟩
  · by_cases hn : node ∈ p.nodesAt l
    · exact .inr (by rw [(mem_nodesAt.1 hn).2]; exact Nat.lt_succ_self l)
    · rw [helse node hn] at hsome
      exact (hst.fresh node t ht hsome).imp_right Nat.lt_succ_of_lt
  · by_cases hn : node ∈ p.nodesAt l
    · exact hat node hn
    · rw [helse node hn]
      refine hst.kept node t ht (hb.imp_right fun h => ?_) ?_
      · rw [mem_nodesAt, not_and] at hn
        have := hn (Array.getElem?_eq_some_iff.1 ht).1
        omega
      · rcases hr with hr | hr | hr | hr
        · exact .inl hr
        · exact .inr (.inl (by rw [pending_succ]; omega))
        · exact absurd hr (Nat.succ_ne_zero l)
        · exact .inr (.inr (.inr hr))

/-- Releasing a level keeps what may still be read. -/
theorem Stage.released (hst : p.Stage c w start keep (l + 1) ws) (hkeep : ¬keep) {left : Array Nat}
    (hl : ∀ k, left.getD k 0 = p.pending l k) :
    p.Stage c w start keep (l + 1) (p.release (p.nodesAt l) (ws, left)).1 ∧
      ∀ k, (p.release (p.nodesAt l) (ws, left)).2.getD k 0 = p.pending (l + 1) k := by
  obtain ⟨hs, hcount, hfrom, hsame⟩ := @release_spec p l ws left hl
  refine ⟨⟨hs.trans hst.size, fun node h hh => hst.right node h (hfrom node h hh), fun node t ht hsome => ?_,
    fun node t ht hb hr => ?_⟩, hcount⟩
  · obtain ⟨h, hh⟩ := Option.isSome_iff_exists.1 hsome
    exact hst.fresh node t ht (by rw [hfrom node h hh]; rfl)
  · have hr' : p.graph.isRoot node = true ∨ 0 < p.pending (l + 1) node :=
      hr.imp_right fun h => h.resolve_right (not_or.2 ⟨Nat.succ_ne_zero l, hkeep⟩)
    rw [hsame node hr']
    exact hst.kept node t ht hb hr

/-- The stage moves on to the next level, unless a node cannot be computed. -/
theorem stepLevel_spec (config : Config) (hs : p.Scheduled c w start)
    (hst : p.Stage c w start (config.releaseIntermediates = false) l ws) {left : Array Nat}
    (hleft : p.Counted (config.releaseIntermediates = false) l left) :
    ((∀ node t, p.graph.terms[node]? = some t → p.levelOf node = l →
        p.graph.isGiven node t = false → p.Computable c w start node t) ∧
      ∃ ws' left', p.stepLevel config c (ws, left) (p.nodesAt l) = .ok (ws', left') ∧
        p.Stage c w start (config.releaseIntermediates = false) (l + 1) ws' ∧
        p.Counted (config.releaseIntermediates = false) (l + 1) left') ∨
    ((∃ node t, p.graph.terms[node]? = some t ∧ p.graph.isGiven node t = false ∧
        ¬p.Computable c w start node t) ∧
      ∃ err, p.stepLevel config c (ws, left) (p.nodesAt l) = .error err) := by
  rcases computeLevel_spec hs hst with ⟨hcomp, ws', hok, hsize, hright, hat, helse⟩ | ⟨hno, err, herr⟩
  · refine .inl ⟨hcomp, ?_⟩
    have hst' := hst.computed hsize hright hat helse
    by_cases hc : config.releaseIntermediates = false
    · exact ⟨ws', left, by rw [stepLevel, hok, hc]; rfl, hst', fun h => absurd hc h⟩
    · obtain ⟨hreleased, hcount⟩ := hst'.released hc (hleft hc)
      rw [Bool.not_eq_false] at hc
      exact ⟨_, _, by rw [stepLevel, hok, hc]; rfl, hreleased, fun _ => hcount⟩
  · exact .inr ⟨hno, err, by rw [stepLevel, herr]; rfl⟩

/-- The stage after some levels, unless a node cannot be computed. -/
theorem foldlM_stepLevel (config : Config) (hs : p.Scheduled c w start) (n : Nat)
    (hst : p.Stage c w start (config.releaseIntermediates = false) l ws) {left : Array Nat}
    (hleft : p.Counted (config.releaseIntermediates = false) l left) :
    ((∀ node t, p.graph.terms[node]? = some t → l ≤ p.levelOf node → p.levelOf node < l + n →
        p.graph.isGiven node t = false → p.Computable c w start node t) ∧
      ∃ ws' left', ((List.range' l n).map p.nodesAt).foldlM (p.stepLevel config c) (ws, left) =
          .ok (ws', left') ∧
        p.Stage c w start (config.releaseIntermediates = false) (l + n) ws') ∨
    ((∃ node t, p.graph.terms[node]? = some t ∧ p.graph.isGiven node t = false ∧
        ¬p.Computable c w start node t) ∧
      ∃ err, ((List.range' l n).map p.nodesAt).foldlM (p.stepLevel config c) (ws, left) =
        .error err) := by
  induction n generalizing l ws left with
  | zero => exact .inl ⟨fun node t _ h1 h2 => by omega, ws, left, rfl, hst⟩
  | succ n ih =>
    rw [List.range'_succ, List.map_cons, List.foldlM_cons]
    rcases stepLevel_spec config hs hst hleft with ⟨hcomp, ws', left', hok, hst', hleft'⟩ | ⟨hno, err, herr⟩
    · rw [hok]
      rcases ih hst' hleft' with ⟨hcomp', ws'', left'', hok', hst''⟩ | hno
      · refine .inl ⟨fun node t ht h1 h2 hg => ?_, ws'', left'', hok', ?_⟩
        · rcases Nat.eq_or_lt_of_le h1 with h1 | h1
          · exact hcomp node t ht h1.symm hg
          · exact hcomp' node t ht h1 (by omega) hg
        · rwa [Nat.add_right_comm] at hst''
      · exact .inr hno
    · rw [herr]
      exact .inr ⟨hno, err, rfl⟩

/-- A workspace in which exactly what is given holds its strand. -/
structure Given (p : Plan) (c : Chunk) (w : World) (start : Nat) (ws : Workspace) : Prop where
  size : ws.size = p.size
  right : ∀ node h, ws.get? node = some h →
    c.Holds start (p.extraOf node) (p.graph.strand w node) h
  isSome_iff : ∀ node t, p.graph.terms[node]? = some t →
    ((ws.get? node).isSome = true ↔ p.graph.isGiven node t = true)

/-- All nodes of a chunk can be computed. -/
def AllComputable (p : Plan) (c : Chunk) (w : World) (start : Nat) : Prop :=
  ∀ node t, p.graph.terms[node]? = some t → p.graph.isGiven node t = false →
    p.Computable c w start node t

/-- The levels of a chunk can be computed if all nodes can, and then the roots are there. -/
theorem computeAll_spec (config : Config) (hs : p.Scheduled c w start) (hg : p.Given c w start ws) :
    (p.AllComputable c w start ∧ ∃ ws', p.computeAll config c ws = .ok ws' ∧
      ∀ node < p.size, p.graph.isRoot node = true → ∃ h, ws'.get? node = some h ∧
        c.Holds start (p.extraOf node) (p.graph.strand w node) h) ∨
    (¬p.AllComputable c w start ∧ ∃ err, p.computeAll config c ws = .error err) := by
  have hst : p.Stage c w start (config.releaseIntermediates = false) 0 ws :=
    ⟨hg.size, hg.right, fun node t ht h => .inl ((hg.isSome_iff node t ht).1 h), fun node t ht hb _ =>
      (hg.isSome_iff node t ht).2 (hb.resolve_right (Nat.not_lt_zero _))⟩
  have hleft : p.Counted (config.releaseIntermediates = false) 0
      ((List.range p.size).map p.readers).toArray := fun _ k => by
    rw [pending_zero, getD_readers hs.sound.lt]
  have hall : p.computeAll config c ws = ((List.range' 0 p.depth).map p.nodesAt).foldlM
      (p.stepLevel config c) (ws, ((List.range p.size).map p.readers).toArray) >>= fun s => .ok s.1 := by
    rw [computeAll, byLevel_eq hs.size, ← List.range_eq_range' (n := p.depth)]
    rfl
  rcases foldlM_stepLevel config hs p.depth hst hleft with ⟨hcomp, ws', left', hok, hst'⟩ | ⟨hno, err, herr⟩
  · refine .inl ⟨fun node t ht hg => hcomp node t ht (Nat.zero_le _) ?_ hg, ws',
      by rw [hall, hok]; rfl, fun node hn hr => ?_⟩
    · rw [Nat.zero_add]
      exact levelOf_lt_depth hs.size (Array.getElem?_eq_some_iff.1 ht).1
    · have hsome := hst'.kept node _ (Array.getElem?_eq_getElem hn)
        (.inr (by rw [Nat.zero_add]; exact levelOf_lt_depth hs.size hn)) (.inl hr)
      obtain ⟨h, hh⟩ := Option.isSome_iff_exists.1 hsome
      exact ⟨h, hh, hst'.right node h hh⟩
  · obtain ⟨node, t, ht, hg, hno⟩ := hno
    exact .inr ⟨fun h => hno (h node t ht hg), err, by rw [hall, herr]; rfl⟩

end Plan
end AsOf
