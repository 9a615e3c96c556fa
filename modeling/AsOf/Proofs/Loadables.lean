import AsOf.Proofs.Direct
import AsOf.Proofs.Run.Groups
import AsOf.Proofs.Schedules

/-!
# What is loaded is not computed

A chunk is told which assets exist and loads its columns; whatever is still missing then is
computed. Where the loaders answer every request with one history of the right shape, type and
missing value for each column, this goes wrong in two ways only, and both come from masks on
what cannot be computed. A column under a mask is another node than the column itself but the
same to a loader, so at one depth it is asked for twice and answered once. And the existence
of assets under a mask is not what a chunk is told of, nor a column, so it is computed.

* `Engine.loads_what_is_loadable`: when loading succeeds, what it leaves, and when nothing
  loadable is computed.
-/
namespace AsOf

namespace Term

variable {t : Term}

/-- What is loaded is the existence of assets or a column. -/
theorem kind_of_isLoadable (h : t.isLoadable = true) : t.kind = .assetExists ∨ ∃ c, t.column? = some c := by
  rw [isLoadable] at h
  rw [column?]
  cases hk : t.kind <;> rw [hk] at h <;> first | exact .inl rfl | exact .inr ⟨_, rfl⟩ | cases h

theorem column?_of_kind (h : t.kind = .assetExists) : t.column? = none := by
  rw [column?, h]

end Term

namespace TermGraph

variable {pipeline : Pipeline} {g : TermGraph} {node : Nat} {t : Term}

/-- A node is told of or loaded, or else it is computed, or the existence of assets under a mask. -/
theorem isGiven_iff_unmasked (hb : pipeline.Built) (hg : pipeline.graph = .ok g) (ht : g.terms[node]? = some t)
    (hl : t.isLoadable = true) : g.isGiven node t = true ↔ (t.kind = .assetExists → t.mask = none) := by
  rw [isGiven_iff ht]
  constructor
  · rintro (hn | ⟨c, hc⟩) hkind
    · have hsame := same_of_index? hn ht
      cases hm : t.mask with
      | none => rfl
      | some m =>
        obtain ⟨m', hm', -⟩ := Term.mask_of_same ((Term.same_comm _ _).trans hsame) hm
        cases hm'
    · obtain ⟨t', ht', hc⟩ := mem_columns.1 hc
      obtain rfl := Option.some.inj (ht.symm.trans ht')
      rw [Term.column?_of_kind hkind] at hc
      cases hc
  · intro hmask
    rcases Term.kind_of_isLoadable hl with hkind | ⟨c, hc⟩
    · refine .inl ?_
      rcases (hb.of_graph hg ht).of_isLoadable hl (hmask hkind) with rfl | ⟨c, rfl⟩
      · exact index?_of_getElem? (Pipeline.graph_eq_ok hg) ht
      · cases hkind
    · exact .inr ⟨c, mem_columns.2 ⟨t, ht, hc⟩⟩

end TermGraph

namespace Plan

variable {p : Plan} {c : Chunk} {given : Workspace}

/-- A schedule finds what is loadable and computes nothing but what is not. -/
def FindsLoadable (p : Plan) (c : Chunk) (given : Workspace) (schedule : List Step) : Prop :=
  ∀ done nodes rest state, schedule = done ++ .compute nodes :: rest →
    done.foldlM (p.exec c) (p.start given) = .ok state → ∀ node ∈ nodes, state.1.get? node = none →
      ∀ t, p.graph.terms[node]? = some t → t.isLoadable = false

/-- Where all that is loadable is given, an orderly schedule finds it. -/
theorem Orderly.findsLoadable {schedule : List Step} (ho : p.Orderly schedule) (hl : p.Layered)
    (hs : given.size = p.size) (hgiven : ∀ node t, p.graph.terms[node]? = some t → t.isLoadable = true →
      (given.get? node).isSome = true) : p.FindsLoadable c given schedule := by
  intro done nodes rest state hsplit hstate node hn hnone t ht
  have hmissing := (ho.standing hl hs hsplit hstate).given_eq_none (ho.due done _ rest hsplit) hn hnone
  refine Bool.eq_false_iff.2 fun hload => ?_
  have := hgiven node t ht hload
  rw [hmissing] at this
  cases this

/-- What is not given and reads nothing is computed first. -/
theorem not_findsLoadable (hl : p.Layered) (release : Bool) {node : Nat} {t : Term}
    (ht : p.graph.terms[node]? = some t) (hload : t.isLoadable = true) (hedges : p.graph.edgesOf node = [])
    (hnone : given.get? node = none) : ¬p.FindsLoadable c given (p.steps release p.byLevel) := by
  intro hfinds
  have hlt : node < p.size := (Array.getElem?_eq_some_iff.1 ht).1
  have hlevel := hl.lowest node hlt hedges
  obtain ⟨depth, hdepth⟩ : ∃ depth, p.depth = depth + 1 :=
    Nat.exists_eq_succ_of_ne_zero (Nat.ne_of_gt (Nat.zero_lt_of_lt (levelOf_lt_depth hl.size hlt)))
  have hsteps : ∃ rest, p.steps release p.byLevel = [] ++ .compute (p.nodesAt 0) :: rest := by
    rw [steps, byLevel_eq hl.size, hdepth, List.range_succ_eq_map, List.map_cons, List.zip_cons_cons,
      List.flatMap_cons]
    exact ⟨_, rfl⟩
  obtain ⟨rest, hsteps⟩ := hsteps
  have hcomputed := hfinds [] _ rest _ hsteps rfl node (mem_nodesAt.2 ⟨hlt, hlevel⟩) hnone t ht
  rw [hload] at hcomputed
  cases hcomputed

end Plan

namespace Engine

variable {e : Engine} {p : Plan} {pipeline : Pipeline} {alive : Date → Sid → Bool} {start stop : Date} {job : Job}
  {first last : Nat} {x : Nat × Nat}

/-- Before the first level, exactly what is given is there. -/
theorem isSome_loaded {c : Chunk} (hserve : ∀ x ∈ p.graph.columns, (e.loaders.serving? x.2).isSome = true)
    {ws : Workspace} (h : (e.loaded p c).Is (.ok ws)) : ws.size = p.size ∧
      ∀ node t, p.graph.terms[node]? = some t → ((ws.get? node).isSome = true ↔ p.graph.isGiven node t = true) := by
  obtain ⟨ws₀, hseed, hfills⟩ := @fills_seed p c
  obtain ⟨ws₁, calls, hseed', h⟩ := (Run.is_lift _).of_bind (h [])
  obtain rfl : ws₀ = ws₁ := Except.ok.inj (hseed.symm.trans hseed')
  have hall := hfills.trans (Run.fills_loadColumns hserve h)
  have hempty : (Workspace.empty p.size).size = p.size := Array.size_replicate
  refine ⟨hall.size.trans hempty, fun node t ht => ?_⟩
  rw [hall.isSome_iff node (hempty.symm ▸ (Array.getElem?_eq_some_iff.1 ht).1), TermGraph.isGiven_iff ht,
    or_iff_right]
  rw [Workspace.get?, Workspace.empty, Array.getElem?_replicate]
  split <;> exact Bool.false_ne_true

theorem exists_loaded_iff {c : Chunk} (hdates : c.dates.Pairwise (· < ·)) (hsids : c.sids.Nodup)
    (hserve : ∀ x ∈ p.graph.columns, (e.loaders.serving? x.2).isSome = true)
    (hl : e.loaders.Conform p.graph.Asks) : (∃ ws, (e.loaded p c).Is (.ok ws)) ↔ p.ReadsOnce := by
  obtain ⟨ws₀, hseed, -⟩ := @fills_seed p c
  have hbegin : (liftM (seed p c) : Run Workspace).Is (.ok ws₀) := hseed ▸ Run.is_lift _
  rw [← Run.loadColumns_iff hdates hsids hserve hl ws₀]
  refine exists_congr fun ws => ⟨fun h => ?_, fun h => hbegin.bind h⟩
  obtain ⟨r, hr⟩ := Run.exists_loadColumns e.loaders p c ws₀
  exact (hbegin.bind hr).unique h ▸ hr

/-- Where loaders conform, a chunk of a run is loaded exactly if no two of its nodes read one
column at one depth. Then every loadable node holds a history of the rows that it needs, but for
the existence of assets under a mask; and nothing loadable is ever computed exactly if there is
no such node. -/
theorem loads_what_is_loadable (hb : pipeline.Built) (hu : e.assets.Pointwise alive)
    (hj : e.prepare pipeline start stop = .ok job) (hcal : job.calendar.WellFormed)
    (hp : Plan.of? job.graph job.calendar.sessions.size first last = .ok p) (hl : e.loaders.Conform p.graph.Asks)
    (hfx : first ≤ x.1) (hx : x.1 ≤ x.2) (hxl : x.2 ≤ last) :
    let c := e.chunkOf p job.domain job.calendar.sessions (e.assetsFor p) x.1 x.2
    ((∃ ws, (e.loaded p c).Is (.ok ws)) ↔ p.ReadsOnce) ∧ ∀ ws, (e.loaded p c).Is (.ok ws) →
      (∀ node t, p.graph.terms[node]? = some t → t.isLoadable = true → (t.kind = .assetExists → t.mask = none) →
        ∃ h, ws.get? node = some h ∧ h.shape = (c.outputRows + (p.extraOf node).toNat, c.sids.length)) ∧
      ((∀ release orders, List.Forall₂ List.Perm orders p.byLevel →
          p.FindsLoadable c ws (p.steps release orders)) ↔
        ∀ (node : Nat) (t : Term), p.graph.terms[node]? = some t → t.kind = .assetExists → t.mask = none) := by
  intro c
  obtain ⟨-, -, -, hgraph, hserve⟩ := prepare_eq_ok.1 hj
  obtain ⟨hg, hsound⟩ := Plan.sound_of (Pipeline.graph_eq_ok hgraph) hp
  obtain ⟨-, -, hlast, hextra⟩ := Plan.of?_spec hp
  have hlayered := Plan.layered_of (Pipeline.graph_eq_ok hgraph) hp
  rw [← hg] at hgraph hserve
  have hcovers : c.Covers (chunkWorld p job.calendar.sessions (e.assetsFor p) alive (fun _ _ => none) x.1 x.2)
      (startOf p x.1) :=
    chunkOf_covers hu (nodup_assetsFor hu) hcal.size_lt
      (Plan.maxExtra_le fun node => Nat.le_trans (hextra node) hfx) hx (by omega) (fun _ => rfl) fun _ => rfl
  have hdates : c.dates.Pairwise (· < ·) := by
    rw [show c.dates = _ from dates_chunkOf, Array.toList_extract, List.extract_eq_take_drop]
    exact List.Pairwise.take (List.Pairwise.drop hcal.ascending)
  refine ⟨exists_loaded_iff hdates hcovers.nodup hserve hl, fun ws hws => ?_⟩
  obtain ⟨hsize, hthere⟩ := isSome_loaded hserve hws
  refine ⟨fun node t ht hload hmask => ?_, fun hfinds node t ht hkind => ?_, fun hmask release orders ho => ?_⟩
  · obtain ⟨h, hh⟩ := Option.isSome_iff_exists.1
      ((hthere node t ht).2 ((TermGraph.isGiven_iff_unmasked hb hgraph ht hload).2 hmask))
    obtain ⟨ws₀, calls, hseed, hloaded⟩ := (Run.is_lift _).of_bind (hws [])
    have hshape := Run.shaped_loadColumns hserve (Plan.shaped_seed hcovers.mask hseed) hloaded node h hh
    refine ⟨h, hh, hshape.trans ?_⟩
    rw [Plan.shapeIn, Chunk.rowsOf_eq hcovers.output (UInt64.le_iff_toNat_le.1 (Plan.extraOf_le_maxExtra node)),
      Chunk.outputRows]
  · by_contra hmask
    have hload : t.isLoadable = true := by rw [Term.isLoadable, hkind]; rfl
    have hnone : ws.get? node = none := by
      rw [← Option.not_isSome_iff_eq_none, hthere node t ht,
        TermGraph.isGiven_iff_unmasked hb hgraph ht hload]
      exact fun h => hmask (h hkind)
    have hedges := hsound.reads node t ht
    rw [Term.readings, if_pos hload, List.forall₂_nil_left_iff] at hedges
    exact Plan.not_findsLoadable hlayered true ht hload hedges hnone
      (hfinds true p.byLevel (List.forall₂_same.2 fun _ _ => .refl _))
  · exact (Plan.orderly_steps hlayered ho).findsLoadable hlayered hsize fun node t ht hload =>
      (hthere node t ht).2 ((TermGraph.isGiven_iff_unmasked hb hgraph ht hload).2 (hmask node t ht))

/-! The numbers of three days, from tables. -/

theorem columns_latestGraph : latestGraph.columns = [(0, Tables.rate)] := rfl

theorem rateEngine_conforms : (rateEngine []).loaders.Conform latestPlan.graph.Asks := by
  have hrate (c : Column) (hc : latestPlan.graph.Asks c) : c = Tables.rate := by
    obtain ⟨node, hc⟩ := hc
    rw [show latestPlan.graph.columns = _ from columns_latestGraph] at hc
    exact (Prod.mk.inj (List.mem_singleton.1 hc)).2
  have hkeep : (rateEngine []).loaders.Keep latestPlan.graph.Asks
      ((rateEngine []).loaders.told? [Tables.rates []]) False :=
    (rateEngine_overTables Tables.reached_rates_nil).loaders.keep fun ⟨c, hc, hmis⟩ =>
      rateEngine_fits [] (hrate c hc ▸ hmis)
  refine hkeep.conform fun dates c hc => ?_
  rw [hrate c hc]
  exact ⟨_, rfl, rfl, beq_self_eq_true _⟩

/-- The column and the existence of its asset are loaded for all three days. -/
theorem loads_what_is_loadable_rates : ∃ ws, ((rateEngine []).loaded latestPlan ((rateEngine []).chunkOf latestPlan
      (.market "M" threeDays) threeDays.sessions ((rateEngine []).assetsFor latestPlan) 0 2)).Is (.ok ws) ∧
    ∀ node < 2, ∃ h, ws.get? node = some h ∧ h.shape = (3, 1) := by
  have honce : latestPlan.ReadsOnce := by
    intro x hx y hy _ _
    rw [show latestPlan.graph.columns = _ from columns_latestGraph, List.mem_singleton] at hx hy
    rw [hx, hy]
  obtain ⟨hloads, hholds⟩ := loads_what_is_loadable (x := (0, 2)) latestPipeline_plain.built
    (oneLife.pointwise (List.pairwise_singleton _ _)) (prepare_latestPipeline []) threeDays_wellFormed
    plan_latestPipeline rateEngine_conforms (Nat.zero_le 0) (Nat.zero_le 2) (Nat.le_refl 2)
  obtain ⟨ws, hws⟩ := hloads.2 honce
  refine ⟨ws, hws, fun node hn => ?_⟩
  have hterm : ∃ t, latestGraph.terms[node]? = some t ∧ t.isLoadable = true ∧ (t.kind = .assetExists → t.mask = none) ∧
      latestPlan.extraOf node = 0 := by
    obtain rfl | rfl : node = 0 ∨ node = 1 := by omega
    · exact ⟨_, rfl, rfl, (fun hk => by cases hk), rfl⟩
    · exact ⟨_, rfl, rfl, fun _ => rfl, rfl⟩
  obtain ⟨t, ht, hload, hmask, hextra⟩ := hterm
  obtain ⟨h, hh, hshape⟩ := (hholds ws hws).1 node t ht hload hmask
  refine ⟨h, hh, hshape.trans ?_⟩
  rw [hextra]
  cbv

end Engine
end AsOf
