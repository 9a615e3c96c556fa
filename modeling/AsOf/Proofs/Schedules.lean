import AsOf.Proofs.Masked
import AsOf.Proofs.Run.Steps

/-!
# How a chunk is worked through does not show

The nodes of a level can be computed in any order, from the workspace as it stood before the
level, and values can be dropped after their last reader or kept. The result of a chunk is the
same, and it fails in one of these ways exactly if it does in every other. No node misses what
it reads, no counter goes below zero, and nothing is dropped that is an output, the screen, or
still to be read.

* `Plan.computeAll_eq`: the levels as a schedule.
* `Engine.ends_loaded`: what stands before the first level.
* `Engine.schedule_does_not_show`: any order on each level, with release and without.
-/
namespace AsOf

theorem foldlM_flatMap {α β σ ε : Type} {f : α → List β} {step : σ → β → Except ε σ} (xs : List α) (init : σ) :
    (xs.flatMap f).foldlM step init = xs.foldlM (fun s x => (f x).foldlM step s) init := by
  induction xs generalizing init with
  | nil => rfl
  | cons x xs ih =>
    rw [List.flatMap_cons, List.foldlM_append, List.foldlM_cons]
    exact congrArg _ (funext ih)

namespace Plan

variable {p : Plan}

theorem foldlM_count (c : Chunk) (nodes : List Nat) (state : Workspace × Array Nat) :
    (nodes.map Step.count).foldlM (p.exec c) state = .ok (nodes.foldl p.releaseNode state) := by
  induction nodes generalizing state with
  | nil => rfl
  | cons node nodes ih => exact ih (p.releaseNode state node)

/-- The turn of a level in its own order is its step. -/
theorem foldlM_turn (config : Config) (c : Chunk) (level : List Nat) (state : Workspace × Array Nat) :
    (p.turn config.releaseIntermediates (level, level)).foldlM (p.exec c) state = p.stepLevel config c state level := by
  rw [turn, List.foldlM_cons, exec, stepLevel]
  cases p.computeLevel c state.1 level with
  | error err => rfl
  | ok ws =>
    show (ite _ _ _ : List Step).foldlM (p.exec c) (ws, state.2) = .ok _
    split
    · rw [foldlM_count, List.foldl_flatMap]
      rfl
    · rfl

/-- The levels in their own orders are a schedule of all of them. -/
theorem computeAll_eq (config : Config) (c : Chunk) (ws : Workspace) :
    p.computeAll config c ws =
      (p.steps config.releaseIntermediates p.byLevel).foldlM (p.exec c) (p.start ws) >>= fun state => .ok state.1 := by
  rw [steps, foldlM_flatMap, List.zip, List.zipWith_self, List.foldlM_map]
  simp only [foldlM_turn]
  rfl

end Plan

/-! ## Before the first level -/

namespace Run

variable {ls : Loaders} {p : Plan} {c : Chunk} {ws : Workspace} {size : Nat}

theorem ends_loadOne (l : Loader) (r : Request) (column : Column) :
    Ends (fun _ => True) RunError.AtWork (loadOne l r column) := by
  have hcall : Ends (fun _ => True) RunError.AtWork (call l { r with columns := [column] }) := fun _ => trivial
  refine hcall.bind fun answer _ => ends_lift ?_
  unfold orMissing
  split
  · trivial
  · trivial
  · trivial

theorem ends_loadAll (l : Loader) (r : Request) : Ends (fun _ => True) RunError.AtWork (loadAll l r) := by
  have hcall : Ends (fun _ => True) RunError.AtWork (call l r) := fun _ => trivial
  unfold loadAll
  split
  · exact ends_loadOne l r _
  · refine hcall.bind fun answer _ => ?_
    split
    · exact ends_pure trivial
    · exact ends_foldlM (A := fun _ => True) (fun column _ m _ =>
        Ends.bind (ends_loadOne l r column) fun _ _ => ends_pure trivial) trivial
    · exact fun _ => trivial

theorem ends_check (column : Column) (h : History) (shape : Nat × Nat) :
    Checked.Ends (fun _ => True) RunError.AtWork (check column h shape) := by
  by_cases hshape : h.shape ≠ shape
  · simp only [check, if_pos hshape]
    trivial
  by_cases hdtype : h.dtype ≠ column.dtype
  · simp only [check, if_neg hshape, if_pos hdtype]
    trivial
  by_cases hmissing : (h.missing != column.missing) = true
  · simp only [check, if_neg hshape, if_neg hdtype, if_pos hmissing]
    trivial
  · simp only [check, if_neg hshape, if_neg hdtype, if_neg hmissing]
    trivial

theorem ends_take {shape : Nat × Nat} {state : Workspace × Loaded} (hs : state.1.size = size)
    (member : Nat × Column) :
    Checked.Ends (fun state => state.1.size = size) RunError.AtWork (take shape state member) := by
  unfold take
  cases hget : state.2.get? member.2 with
  | none =>
    simp only [hget]
    trivial
  | some h =>
    simp only [hget]
    exact (ends_check ..).bind fun _ _ => Workspace.size_put.trans hs

/-- A column without a loader is the only other thing that loading may fail on. -/
theorem ends_loadColumns {permitted : RunError → Prop} (hwork : ∀ err, err.AtWork → permitted err)
    (hgroups : Checked.Ends (fun _ => True) permitted (groups ls p)) (hs : ws.size = size) :
    Ends (fun ws => ws.size = size) permitted (loadColumns ls p c ws) := by
  refine (ends_lift hgroups).bind fun gs _ => Ends.weaken (ends_foldlM (fun g _ ws hs => ?_) hs) hwork
  refine Ends.bind (ends_loadAll _ _) fun m _ => Ends.bind (ends_lift ?_) fun state hs => ends_pure hs
  exact Checked.ends_foldlM (B := fun state : Workspace × Loaded => state.1.size = size)
    (fun x _ state hs => ends_take hs x) hs

theorem ends_groups (ls : Loaders) (p : Plan) : Checked.Ends (fun _ => True) (¬·.IsMissing) (groups ls p) := by
  refine Checked.ends_foldlM (fun x _ gs _ => ?_) trivial
  show Checked.Ends _ _ (loaderOf ls x.2 >>= _)
  unfold loaderOf
  split
  · trivial
  · exact id

end Run

namespace Engine

variable {outputs : Named Term} {screen : Option Term} {g : TermGraph} {p : Plan}

/-- The workspace of a chunk before the first level. -/
def loaded (e : Engine) (p : Plan) (c : Chunk) : Run Workspace := do
  let ws ← seed p c
  Run.loadColumns e.loaders p c ws

/-- The result of a chunk whose values are computed on a schedule. -/
def runIn (e : Engine) (p : Plan) (c : Chunk) (schedule : List Plan.Step) : Run Result := do
  let ws ← e.loaded p c
  liftM (p.complete c schedule ws)

theorem ends_seed (p : Plan) (c : Chunk) :
    Checked.Ends (fun ws => ws.size = p.size) RunError.AtWork (seed p c) := by
  have hempty : (Workspace.empty p.size).size = p.size := Array.size_replicate
  unfold seed
  split
  · exact hempty
  · exact ((Checked.ends_true _).mapError fun _ _ => trivial).bind fun h _ =>
      Workspace.size_put.trans hempty

/-- What is loaded has a place for every node, and loading misses no value. -/
theorem ends_loaded (e : Engine) (p : Plan) (c : Chunk) :
    Run.Ends (fun ws => ws.size = p.size) (¬·.IsMissing) (e.loaded p c) :=
  ((Run.ends_lift (ends_seed p c)).weaken fun _ => RunError.AtWork.not_missing).bind fun _ hs =>
    Run.ends_loadColumns (fun _ => RunError.AtWork.not_missing) (Run.ends_groups e.loaders p) hs

/-- What is loaded for a chunk of a run is what its world has to give. -/
theorem Setting.given {e : Engine} {sessions : Array Date} {sids : List Sid} {alive : Date → Sid → Bool}
    {ledger? : List Date → Column → Option Ledger} {mayRefuse : Prop} {first : Nat}
    (hs : e.Setting p sessions sids alive ledger? mayRefuse first) (domain : Domain) {x : Nat × Nat}
    (hfx : first ≤ x.1) (hx : x.1 ≤ x.2) (hl : x.2 < sessions.size) {ws : Workspace}
    (h : (e.loaded p (e.chunkOf p domain sessions sids x.1 x.2)).Is (.ok ws)) :
    p.Given (e.chunkOf p domain sessions sids x.1 x.2) (chunkWorld p sessions sids alive ledger? x.1 x.2)
      (startOf p x.1) ws := by
  have hcovers := (hs.scheduled domain hfx hx hl).covers
  obtain ⟨ws₀, hseed, hfilled⟩ := seed_spec (p := p) hcovers
  have hseeded : (liftM (seed p (e.chunkOf p domain sessions sids x.1 x.2)) : Run Workspace).Is (.ok ws₀) :=
    hseed ▸ Run.is_lift _
  rcases Run.loadColumns_spec hcovers (hs.ascending_dates domain x) hs.keep (hs.tells domain hfx) hs.served hfilled with
    ⟨-, ws', hok, hgiven⟩ | ⟨-, err, herr⟩
  · obtain rfl := Except.ok.inj (h.unique (hseeded.bind hok))
    exact hgiven
  · cases h.unique (hseeded.bind herr)

/-- A chunk is worked through level by level. -/
theorem runChunk_eq_runIn (e : Engine) (p : Plan) (c : Chunk) :
    e.runChunk p c = e.runIn p c (p.steps e.config.releaseIntermediates p.byLevel) := by
  simp only [runChunk, runIn, loaded, bind_assoc, Plan.complete, Plan.computeAll_eq, Run.lift_bind]
  rfl

/-- However the levels of a chunk are ordered, with release or without, it comes to the same
result after the same calls, no value is missing, and every step is safe. -/
theorem schedule_does_not_show (hg : TermGraph.of? outputs screen = .ok g) {sessions first last : Nat}
    (hp : Plan.of? g sessions first last = .ok p) (e : Engine) (c : Chunk) :
    (∀ config, Engine.runChunk { e with config } p c =
      e.runIn p c (p.steps config.releaseIntermediates p.byLevel)) ∧
    ∀ (release : Bool) (orders : List (List Nat)), List.Forall₂ List.Perm orders p.byLevel → ∀ calls : List Call,
      (∀ r, ((e.runIn p c (p.steps release orders)).run.run calls).1 = .ok r ↔
        ((e.runChunk p c).run.run calls).1 = .ok r) ∧
      ((e.runIn p c (p.steps release orders)).run.run calls).2 = ((e.runChunk p c).run.run calls).2 ∧
      (∀ err, ((e.runIn p c (p.steps release orders)).run.run calls).1 = .error err → ¬err.IsMissing) ∧
      ∀ ws, ((e.loaded p c).run.run calls).1 = .ok ws → ∀ done step rest state,
        p.steps release orders = done ++ step :: rest → done.foldlM (p.exec c) (p.start ws) = .ok state →
          p.Safe c done step state := by
  have hl := Plan.layered_of hg hp
  refine ⟨fun config => runChunk_eq_runIn { e with config } p c, fun release orders ho calls => ?_⟩
  have horderly : p.Orderly (p.steps release orders) := Plan.orderly_steps hl ho
  have husual : p.Orderly (p.steps e.config.releaseIntermediates p.byLevel) :=
    Plan.orderly_steps hl (List.forall₂_same.2 fun _ _ => .refl _)
  have hloaded := e.ends_loaded p c calls
  have hrun (schedule : List Plan.Step) : (e.runIn p c schedule).run.run calls =
      match (e.loaded p c).run.run calls with
      | (.ok ws, calls) => (p.complete c schedule ws, calls)
      | (.error err, calls) => (.error err, calls) := by
    rw [runIn, Run.run_bind]
    cases (e.loaded p c).run.run calls with
    | mk result calls =>
      cases result with
      | error err => rfl
      | ok ws => exact Run.run_lift _ calls
  rw [runChunk_eq_runIn, hrun, hrun]
  cases hx : (e.loaded p c).run.run calls with
  | mk result calls =>
    rw [hx] at hloaded
    cases result with
    | error err =>
      exact ⟨fun r => Iff.rfl, rfl, fun err' herr => Except.error.inj herr ▸ hloaded, fun ws h => nomatch h⟩
    | ok ws =>
      refine ⟨Plan.complete_iff horderly husual hl hloaded, rfl, fun err herr => ?_,
        fun ws' h done step rest state hsplit hstate => ?_⟩
      · have hends := Plan.ends_complete (c := c) horderly hl hloaded
        rwa [show p.complete c (p.steps release orders) ws = .error err from herr] at hends
      · obtain rfl := Except.ok.inj h
        exact horderly.safe hl hloaded hsplit hstate

/-! Two filters on one level, one of which masks another. -/

/-- The filter of the first asset. -/
def firstAsset : Term := .mk ⟨.staticAssets [⟨1⟩], .filter, .bool, .bool false, 0, .generic, true⟩ [] none

def siblingGraph : TermGraph where
  terms := #[.assetExists, secondAsset, bothAssets, firstAsset]
  edges := #[[], [⟨0, 0, true⟩], [⟨1, 0, true⟩], [⟨0, 0, true⟩]]
  outputs := [("both", 2), ("first", 3)]
  screen := none

def siblingPlan : Plan := ⟨siblingGraph, #[0, 0, 0, 0], #[0, 1, 2, 1]⟩

def siblingChunk : Chunk :=
  bareEngine.chunkOf siblingPlan (.market "M" threeDays) threeDays.sessions [⟨1⟩, ⟨2⟩] 0 2

/-- The second level backwards, with every value dropped after its last reader. -/
theorem schedule_does_not_show_siblings :
    siblingPlan.byLevel = [[0], [1, 3], [2]] ∧
    ((bareEngine.runIn siblingPlan siblingChunk (siblingPlan.steps true [[0], [3, 1], [2]])).run.run []).1 =
      .ok ⟨#[⟨0⟩, ⟨1⟩, ⟨1⟩, ⟨2⟩, ⟨2⟩], #[⟨1⟩, ⟨1⟩, ⟨2⟩, ⟨1⟩, ⟨2⟩],
        [("both", .bools [false, false, true, false, true]), ("first", .bools [true, true, false, true, false])]⟩ := by
  have hgraph : TermGraph.of? [("both", bothAssets), ("first", firstAsset)] none = .ok siblingGraph := rfl
  have hplan : Plan.of? siblingGraph 3 0 2 = .ok siblingPlan := by cbv
  have hlevels : siblingPlan.byLevel = [[0], [1, 3], [2]] := by decide
  have hrun : ((bareEngine.runChunk siblingPlan siblingChunk).run.run []).1 =
      .ok ⟨#[⟨0⟩, ⟨1⟩, ⟨1⟩, ⟨2⟩, ⟨2⟩], #[⟨1⟩, ⟨1⟩, ⟨2⟩, ⟨1⟩, ⟨2⟩],
        [("both", .bools [false, false, true, false, true]), ("first", .bools [true, true, false, true, false])]⟩ := by
    cbv
  have horders : List.Forall₂ List.Perm [[0], [3, 1], [2]] siblingPlan.byLevel := by
    rw [hlevels]
    exact .cons (.refl _) (.cons (.swap ..) (.cons (.refl _) .nil))
  exact ⟨hlevels, ((schedule_does_not_show hgraph hplan bareEngine siblingChunk).2 true _ horders []).1 _ |>.2 hrun⟩

end Engine
end AsOf
