import AsOf.Proofs.Run.Load

/-!
# The shapes of a workspace

Every history in the workspace of a chunk has the rows of its node and the assets of the
chunk, whatever the loaders answer and whatever is computed from it: an answer of
another shape is refused, and so is a computed block.

* `Engine.evaluated`: the workspace of a chunk, once all levels are computed.
* `Engine.shaped_evaluated`: its histories have their shapes.
-/
namespace AsOf

namespace Workspace

variable {ws : Workspace} {node k : Nat} {h h' : History}

theorem of_get?_put (hk : (ws.put node h).get? k = some h') : k = node ∧ h' = h ∨ ws.get? k = some h' := by
  by_cases hn : node < ws.size
  · rw [get?_put hn] at hk
    split at hk
    · exact .inl ⟨‹_›, (Option.some.inj hk).symm⟩
    · exact .inr hk
  · rw [put, Array.setIfInBounds_eq_of_size_le (by omega)] at hk
    exact .inr hk

end Workspace

theorem History.block_of_unadjusted {b : Block} {missing : Scalar} {h : History}
    (hh : History.unadjusted b missing = .ok h) : h.block = b := by
  obtain ⟨-, -, hh⟩ := Checked.bind_eq_ok.1 hh
  obtain ⟨-, -, hh⟩ := Checked.bind_eq_ok.1 hh
  rw [← Except.ok.inj hh]

/-- What is computed has the shape of its context, whatever it is computed from. -/
theorem shape_evaluate {t : Term} {inputs : List Input} {ctx : Context} {b : Block}
    (h : evaluate t inputs ctx = .ok b) : b.shape = ctx.shape := by
  obtain ⟨-, -, out, -, hs, hb⟩ := Evaluate.evaluate_eq_ok.1 h
  exact (Block.shape_of_whereMask hb).trans hs

namespace Plan

variable {p : Plan} {c : Chunk} {ws ws' : Workspace}

/-- The rows of a node and the assets of a chunk. -/
def shapeIn (p : Plan) (c : Chunk) (node : Nat) : Nat × Nat := (c.rowsOf (p.extraOf node), c.sids.length)

/-- Every history in the workspace has its shape. -/
def Shaped (p : Plan) (c : Chunk) (ws : Workspace) : Prop :=
  ∀ node h, ws.get? node = some h → h.shape = p.shapeIn c node

theorem Shaped.put (hs : p.Shaped c ws) {node : Nat} {h : History} (hh : h.shape = p.shapeIn c node) :
    p.Shaped c (ws.put node h) := by
  intro k h' hk
  rcases Workspace.of_get?_put hk with ⟨rfl, rfl⟩ | hk
  · exact hh
  · exact hs k h' hk

theorem shaped_empty : p.Shaped c (.empty p.size) := by
  intro node h hn
  rw [Workspace.get?, Workspace.empty, Array.getElem?_replicate] at hn
  split at hn <;> cases hn

/-- The existence of assets has the shape of its node. -/
theorem shaped_seed (hm : c.mask.shape = (c.dates.length, c.sids.length)) (h : Engine.seed p c = .ok ws) :
    p.Shaped c ws := by
  unfold Engine.seed at h
  cases hn : p.graph.index? Term.assetExists with
  | none =>
    simp only [hn] at h
    rw [← Except.ok.inj h]
    exact shaped_empty
  | some node =>
    simp only [hn] at h
    obtain ⟨history, hhistory, h⟩ := Checked.bind_eq_ok.1 h
    rw [← Except.ok.inj h]
    refine shaped_empty.put ?_
    have hmask := Grid.shape_eq.1 hm
    rw [History.shape, History.block_of_unadjusted (Checked.mapError_eq_ok.1 hhistory)]
    show (c.maskFrom (p.extraOf node)).shape = _
    rw [Chunk.maskFrom, Grid.shape_sliceRows, hmask.1, hmask.2, Nat.min_self]
    rfl

/-! ## Levels -/

theorem shape_computeNode {node : Nat} {t : Term} {h : History} (hh : p.computeNode c ws node t = .ok h) :
    h.shape = p.shapeIn c node := by
  obtain ⟨⟨mask, inputs⟩, -, hh⟩ := Checked.bind_eq_ok.1 hh
  obtain ⟨block, hblock, hh⟩ := Checked.bind_eq_ok.1 hh
  rw [History.shape, History.block_of_unadjusted (Checked.mapError_eq_ok.1 hh),
    shape_evaluate (Checked.mapError_eq_ok.1 hblock), Context.shape, Chunk.length_datesFrom]
  rfl

theorem Shaped.foldl_put (hs : p.Shaped c ws) {pairs : List (Nat × History)}
    (hp : ∀ x ∈ pairs, x.2.shape = p.shapeIn c x.1) :
    p.Shaped c (pairs.foldl (fun ws x => ws.put x.1 x.2) ws) := by
  induction pairs generalizing ws with
  | nil => exact hs
  | cons x pairs ih =>
    exact ih (hs.put (hp x List.mem_cons_self)) fun y hy => hp y (List.mem_cons_of_mem _ hy)

theorem Shaped.computeLevel (hs : p.Shaped c ws) {level : List Nat} (h : p.computeLevel c ws level = .ok ws') :
    p.Shaped c ws' := by
  obtain ⟨pairs, hpairs, h⟩ := Checked.bind_eq_ok.1 h
  rw [← Except.ok.inj h]
  refine hs.foldl_put fun x hx => ?_
  obtain ⟨node, -, hnode⟩ := Checked.exists_of_filterMapM hpairs hx
  split at hnode
  · obtain ⟨history, hhistory, hnode⟩ := Checked.bind_eq_ok.1 hnode
    obtain rfl := Option.some.inj (Except.ok.inj hnode)
    exact shape_computeNode hhistory
  · cases hnode

theorem Shaped.release (hs : p.Shaped c ws) (level : List Nat) (left : Array Nat) :
    p.Shaped c (p.release level (ws, left)).1 := by
  have main (nodes : List Nat) (state : Workspace × Array Nat) (hs : p.Shaped c state.1) :
      p.Shaped c (nodes.foldl p.releaseNode state).1 := fun node h hn =>
    hs node h ((p.foldl_releaseNode nodes state.1 state.2).2.2.1 node h hn)
  unfold Plan.release
  induction level generalizing ws left with
  | nil => exact hs
  | cons node level ih => exact ih (main _ (ws, left) hs) _

theorem Shaped.computeAll (hs : p.Shaped c ws) {config : Config} (h : p.computeAll config c ws = .ok ws') :
    p.Shaped c ws' := by
  have main (levels : List (List Nat)) (ws : Workspace) (left : Array Nat) (hs : p.Shaped c ws)
      {state : Workspace × Array Nat} (h : levels.foldlM (p.stepLevel config c) (ws, left) = .ok state) :
      p.Shaped c state.1 := by
    induction levels generalizing ws left with
    | nil =>
      rw [← Except.ok.inj h]
      exact hs
    | cons level levels ih =>
      rw [List.foldlM_cons] at h
      obtain ⟨⟨ws₁, left₁⟩, hstep, h⟩ := Checked.bind_eq_ok.1 h
      obtain ⟨ws₂, hlevel, hstep⟩ := Checked.bind_eq_ok.1 hstep
      refine ih ws₁ left₁ ?_ h
      have hs₂ := hs.computeLevel hlevel
      by_cases hr : config.releaseIntermediates = true
      · have heq := Except.ok.inj (hstep.symm.trans (congrArg Except.ok (if_pos hr)))
        have := hs₂.release level left
        rw [← heq] at this
        exact this
      · have heq := Except.ok.inj (hstep.symm.trans (congrArg Except.ok (if_neg hr)))
        rw [show ws₁ = ws₂ from congrArg Prod.fst heq]
        exact hs₂
  obtain ⟨state, hstate, h⟩ := Checked.bind_eq_ok.1 h
  rw [← Except.ok.inj h]
  exact main _ ws _ hs hstate

end Plan

/-! ## Columns -/

namespace Run

variable {ls : Loaders} {p : Plan} {c : Chunk} {ws ws' : Workspace}

theorem shaped_take {shape : Nat × Nat} {members : List (Nat × Column)} {m : Loaded} {state : Workspace × Loaded}
    (hshape : ∀ x ∈ members, shape = p.shapeIn c x.1) (hs : p.Shaped c ws)
    (h : members.foldlM (take shape) (ws, m) = .ok state) : p.Shaped c state.1 := by
  induction members generalizing ws m with
  | nil =>
    rw [← Except.ok.inj h]
    exact hs
  | cons x members ih =>
    rw [List.foldlM_cons] at h
    obtain ⟨⟨ws₁, m₁⟩, hx, h⟩ := Checked.bind_eq_ok.1 h
    refine ih (fun y hy => hshape y (List.mem_cons_of_mem _ hy)) ?_ h
    obtain ⟨history, -, hcheck, hx⟩ := take_eq_ok.1 hx
    obtain ⟨rfl, -⟩ := Prod.mk.inj hx
    exact hs.put ((check_eq_ok.1 hcheck).1.trans (hshape x List.mem_cons_self))

/-- Whatever the loaders answer, loading comes to a result. -/
theorem exists_loadGroup (c : Chunk) (ws : Workspace) (g : Group) : ∃ r, (loadGroup c ws g).Is r := by
  rw [loadGroup_eq]
  exact exists_bind (exists_loadAll _ _) fun m => exists_bind ⟨_, is_lift _⟩ fun _ => ⟨_, is_pure _⟩

theorem exists_loadColumns (ls : Loaders) (p : Plan) (c : Chunk) (ws : Workspace) :
    ∃ r, (loadColumns ls p c ws).Is r :=
  exists_bind ⟨_, is_lift _⟩ fun _ => exists_foldlM (fun ws g => exists_loadGroup c ws g) _ _

theorem shaped_loadGroup {g : Group} (hg : g.Proper ls p) (hs : p.Shaped c ws) {calls : List Call}
    (h : ((loadGroup c ws g).run.run calls).1 = .ok ws') : p.Shaped c ws' := by
  rw [loadGroup_eq] at h
  obtain ⟨r, hr⟩ := exists_loadAll g.loader (requestOf c g)
  obtain ⟨m, calls, -, h⟩ := hr.of_bind h
  obtain ⟨state, calls, hstate, h⟩ := (is_lift _).of_bind h
  rw [← Except.ok.inj h]
  refine shaped_take (fun x hx => ?_) hs hstate
  rw [Plan.shapeIn, hg.extra x hx, ← Chunk.length_datesFrom]
  rfl

/-- Loaded groups have the shapes of their nodes. -/
theorem shaped_loadGroups {gs : List Group} (hgs : ∀ g ∈ gs, g.Proper ls p) (hs : p.Shaped c ws)
    {calls : List Call} (h : ((gs.foldlM (loadGroup c) ws).run.run calls).1 = .ok ws') : p.Shaped c ws' := by
  induction gs generalizing ws calls with
  | nil =>
    rw [← Except.ok.inj h]
    exact hs
  | cons g gs ih =>
    rw [List.foldlM_cons] at h
    obtain ⟨r, hr⟩ := exists_loadGroup c ws g
    have hval := hr calls
    obtain ⟨ws₁, calls₁, rfl, h⟩ := hr.of_bind h
    exact ih (fun g hg => hgs g (List.mem_cons_of_mem _ hg))
      (shaped_loadGroup (hgs g List.mem_cons_self) hs hval) h

/-- Loaded columns have the shapes of their nodes. -/
theorem shaped_loadColumns (hserve : ∀ x ∈ p.graph.columns, (ls.serving? x.2).isSome = true)
    (hs : p.Shaped c ws) {calls : List Call} (h : ((loadColumns ls p c ws).run.run calls).1 = .ok ws') :
    p.Shaped c ws' := by
  obtain ⟨gs, hgs, hproper, -⟩ := groups_spec hserve
  obtain ⟨gs', calls, hgs', h⟩ := (is_lift _).of_bind h
  obtain rfl : gs = gs' := Except.ok.inj (hgs.symm.trans hgs')
  exact shaped_loadGroups hproper hs h

end Run

namespace Engine

variable {e : Engine} {p : Plan} {c : Chunk} {ws : Workspace}

/-- The workspace of a chunk, once all levels are computed. -/
def evaluated (e : Engine) (p : Plan) (c : Chunk) : Run Workspace := do
  let ws ← seed p c
  let ws ← Run.loadColumns e.loaders p c ws
  p.computeAll e.config c ws

theorem runChunk_eq (e : Engine) (p : Plan) (c : Chunk) :
    e.runChunk p c = e.evaluated p c >>= fun ws => liftM (p.assemble c ws) := by
  simp only [runChunk, evaluated, bind_assoc]

theorem exists_evaluated (e : Engine) (p : Plan) (c : Chunk) : ∃ r, (e.evaluated p c).Is r :=
  Run.exists_bind ⟨_, Run.is_lift _⟩ fun ws =>
    Run.exists_bind (Run.exists_loadColumns _ _ _ ws) fun _ => ⟨_, Run.is_lift _⟩

/-- Every history of a chunk has the rows of its node and the assets of the chunk. -/
theorem shaped_evaluated (hm : c.mask.shape = (c.dates.length, c.sids.length))
    (hserve : ∀ x ∈ p.graph.columns, (e.loaders.serving? x.2).isSome = true)
    (h : (e.evaluated p c).Is (.ok ws)) : p.Shaped c ws := by
  obtain ⟨ws₁, calls, hseed, h⟩ := (Run.is_lift _).of_bind (h [])
  obtain ⟨r, hr⟩ := Run.exists_loadColumns e.loaders p c ws₁
  have hval := hr calls
  obtain ⟨ws₂, calls, rfl, h⟩ := hr.of_bind h
  have hcomputed := ((Run.is_lift _) calls).symm.trans h
  exact (Run.shaped_loadColumns hserve (Plan.shaped_seed hm hseed) hval).computeAll hcomputed

end Engine
end AsOf
