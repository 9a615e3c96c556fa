import AsOf.Proofs.Chunks
import AsOf.Proofs.Graph.Reads

/-!
# What terms mean, term by term

`Term.meaning` is what a term is on every session, by recursion over its inputs and its
mask: no nodes are shared, no histories are cut out, and no rows are counted. A column is
read as known on the session of the reader, a computed input as it is on each session of
the window, and outside of its mask a term has its missing value.

A graph holds terms that are the same once. Where that makes no difference, since terms
that are the same are one, and where masks are on computed terms only, each node means what
its term does, and a chunk that can be computed comes to the table of its outputs' meanings.

* `TermGraph.strand_eq_meaning`: a node means what its term does.
* `Engine.runChunk_eq_meaning`: what a chunk that is computed comes to.
-/
namespace AsOf

/-- What there is to know, by session and by column. -/
structure Facts where
  date : Nat → Date
  /-- The assets that are alive on a session. -/
  live : Nat → List Sid
  /-- The cell of a column for a session as known on a later one. -/
  known : Column → (session asOf : Nat) → Sid → Scalar

namespace Facts

/-- Dates and assets, without columns. -/
def world (f : Facts) : World := ⟨f.date, f.live, fun _ _ _ _ => .label none⟩

/-- Whether assets are alive. -/
def existence (f : Facts) : Strand := ⟨.bool, fun r _ => some fun sid => .bool ((f.live r).contains sid)⟩

end Facts

/-! ## Meanings -/

namespace Term

mutual
/-- What a term is: the existence of assets, a column, or what it makes of its inputs for
the assets that are alive and pass its mask. -/
def meaning (f : Facts) : Term → Strand
  | mk head inputs mask =>
    match head.kind with
    | .assetExists => f.existence
    | .column c => ⟨c.dtype, fun r p => some (f.known c r p)⟩
    | _ => ⟨head.missing.dtype, fun r _ =>
        (mk head inputs mask).rowAt? f.world [maskMeaning f mask] (meanings f inputs) r⟩

def meanings (f : Facts) : List Term → List Strand
  | [] => []
  | t :: ts => meaning f t :: meanings f ts

def maskMeaning (f : Facts) : Option Term → Strand
  | none => f.existence
  | some t => meaning f t
end

variable {f : Facts} {t : Term} {c : Column}

theorem meanings_eq (f : Facts) (ts : List Term) : meanings f ts = ts.map (meaning f) := by
  induction ts with
  | nil => rfl
  | cons t ts ih => rw [meanings, ih, List.map_cons]

theorem maskMeaning_eq (f : Facts) (mask : Option Term) :
    maskMeaning f mask = (mask.getD assetExists).meaning f := by
  cases mask <;> rfl

theorem meaning_ofColumn (f : Facts) (c : Column) :
    (ofColumn c).meaning f = ⟨c.dtype, fun r p => some (f.known c r p)⟩ := rfl

theorem isSome_row?_of_isLoadable (h : t.isLoadable = true) (r q : Nat) : ((t.meaning f).row? r q).isSome = true := by
  obtain ⟨head, inputs, mask⟩ := t
  have hkind : head.kind.isLoadable = true := h
  rw [meaning]
  split
  · rfl
  · rfl
  · rename_i hexists hcolumn
    cases hk : head.kind with
    | assetExists => exact absurd hk hexists
    | column c => exact absurd hk (hcolumn c)
    | _ =>
      rw [hk] at hkind
      cases hkind

/-- A computed term is what it makes of its inputs and its mask. -/
theorem meaning_computed (h : t.isLoadable = false) : t.meaning f = ⟨t.missing.dtype, fun r _ =>
    t.rowAt? f.world [(t.mask.getD assetExists).meaning f] (t.inputs.map (meaning f)) r⟩ := by
  obtain ⟨head, inputs, mask⟩ := t
  have hkind : head.kind.isLoadable = false := h
  rw [meaning, maskMeaning_eq, meanings_eq]
  split
  · rename_i he
    rw [he] at hkind
    cases hkind
  · rename_i he
    rw [he] at hkind
    cases hkind
  · rfl

/-- The values of a term on a session depend on nothing but its date and the assets alive. -/
theorem rowAt?_congr {w w' : World} (hdate : w.date = w'.date) (hlive : w.live = w'.live)
    (t : Term) (masks inputs : List Strand) (r : Nat) : t.rowAt? w masks inputs r = t.rowAt? w' masks inputs r := by
  unfold rowAt?
  rw [hdate, hlive]

end Term

/-! ## Nodes and terms -/

namespace Pipeline

/-- A pipeline of built terms, of which those that are the same are one, and with masks on
computed terms only. -/
structure Plain (p : Pipeline) : Prop where
  built : p.Built
  unmasked : ∀ t, p.Holds t → t.isLoadable = true → t.mask = none
  shared : ∀ a b, p.Holds a → p.Holds b → a.same b = true → a = b

end Pipeline

/-- What a world tells is what there is to know. -/
structure Facts.Describes (f : Facts) (g : TermGraph) (w : World) : Prop where
  date : w.date = f.date
  live : w.live = f.live
  known : ∀ node c, g.terms[node]? = some (.ofColumn c) → w.known node = f.known c

namespace TermGraph

variable {pipeline : Pipeline} {g : TermGraph} {f : Facts} {w : World}

/-- A node means what its term does. -/
theorem strand_eq_meaning (hp : pipeline.Plain) (hg : pipeline.graph = .ok g) (hw : f.Describes g w) (node : Nat)
    (t : Term) (ht : g.terms[node]? = some t) : g.strand w node = t.meaning f := by
  induction node using Nat.strong_induction_on generalizing t with
  | _ node ih =>
    have hholds := Pipeline.holds_of_graph hg ht
    by_cases hl : t.isLoadable = true
    · rcases strand_loaded hg hp.built ht hl (hp.unmasked t hholds hl) with ⟨rfl, hstrand⟩ | ⟨c, rfl, hstrand⟩
      · rw [hstrand, hw.live]
        rfl
      · rw [hstrand, hw.known node c ht, Term.meaning_ofColumn]
    · have hl := Bool.eq_false_iff.2 hl
      obtain ⟨mask, inputs, hreads⟩ := exists_reads (Pipeline.graph_eq_ok hg) ht hl
      have hread {dep : Term} (hd : dep ∈ t.inputs ∨ dep = t.mask.getD Term.assetExists) {k : Nat}
          (hk : g.HoldsBefore node dep k) : g.strand w k = dep.meaning f := by
        obtain ⟨t', ht', hsame⟩ := hk.term
        rw [ih k hk.lt t' ht', hp.shared t' dep (Pipeline.holds_of_graph hg ht')
          (.dependency hholds ((Term.mem_dependencies hl).2 hd)) hsame]
      have hinputs : inputs.map (g.strand w) = t.inputs.map (Term.meaning f) := by
        rw [← List.forall₂_eq_eq_eq, List.forall₂_map_left_iff, List.forall₂_map_right_iff]
        have hholding := (List.forall₂_and_left _ _).2 ⟨fun dep hd => hd, hreads.holds_inputs⟩
        exact (hholding.imp fun dep k hk => hread (.inl hk.1) hk.2).flip
      rw [hreads.strand_eq, Term.meaning_computed hl, hread (.inr rfl) hreads.holds_mask, hinputs]
      exact congrArg (Strand.mk _) (funext fun r => funext fun _ => Term.rowAt?_congr hw.date hw.live t _ _ r)

end TermGraph

/-! ## Tables -/

namespace Pipeline

/-- The assets of a session that are alive and that the screen's meaning passes. -/
def passing (p : Pipeline) (f : Facts) (r : Nat) : List Sid :=
  match p.screen with
  | some screen => (f.live r).filter fun sid => ((screen.term.meaning f).value r sid).asBool?.getD false
  | none => f.live r

/-- The sessions and assets of the rows. -/
def rows (p : Pipeline) (f : Facts) (sessions : List Nat) : List (Nat × Sid) :=
  sessions.flatMap fun r => (p.passing f r).map (r, ·)

/-- What the outputs mean, on the rows of some sessions. -/
def table (p : Pipeline) (f : Facts) (sessions : List Nat) : Result :=
  ⟨((p.rows f sessions).map fun row => f.date row.1).toArray, ((p.rows f sessions).map Prod.snd).toArray,
    p.columns.map fun x => (x.1, .ofScalars (x.2.meaning f).dtype
      ((p.rows f sessions).map fun row => (x.2.meaning f).value row.1 row.2))⟩

variable {pipeline : Pipeline} {g : TermGraph} {f : Facts} {w : World}

/-- The terms of a pipeline have nodes. -/
theorem exists_node (hg : pipeline.graph = .ok g) {t : Term} (ht : t ∈ pipeline.terms) :
    ∃ (node : Nat) (t' : Term), g.terms[node]? = some t' ∧ t'.same t = true := by
  have hof := graph_eq_ok hg
  rcases mem_terms.1 ht with ⟨o, ho, rfl⟩ | ⟨s, hs, rfl⟩
  · obtain ⟨n, -, -, t', ht', hsame⟩ := Checked.exists_right (TermGraph.outputs_spec hof) ho
    exact ⟨n.2, t', ht', hsame⟩
  · rw [show pipeline.screen = some s from hs] at hof
    obtain ⟨node, t', -, ht', hsame⟩ := TermGraph.screen_spec hof
    exact ⟨node, t', ht', hsame⟩

/-- A node that is found to hold a term of the pipeline means what the term does. -/
theorem strand_of_same (hp : pipeline.Plain) (hg : pipeline.graph = .ok g) (hw : f.Describes g w) {node : Nat}
    {t t' : Term} (ht : t ∈ pipeline.terms) (ht' : g.terms[node]? = some t') (hs : t'.same t = true) :
    g.strand w node = t.meaning f := by
  rw [TermGraph.strand_eq_meaning hp hg hw node t' ht',
    hp.shared t' t (holds_of_graph hg ht') (.root ht) hs]

theorem passing_eq (hp : pipeline.Plain) (hg : pipeline.graph = .ok g) (hw : f.Describes g w) (r : Nat) :
    g.passing w r = pipeline.passing f r := by
  have hof := graph_eq_ok hg
  unfold TermGraph.passing passing
  cases hs : pipeline.screen with
  | none =>
    rw [hs] at hof
    rw [TermGraph.screen_none hof, hw.live]
  | some s =>
    rw [hs] at hof
    obtain ⟨node, t, hn, ht, hsame⟩ := TermGraph.screen_spec hof
    have hmem : s.term ∈ pipeline.terms := mem_terms.2 (.inr ⟨s, hs, rfl⟩)
    rw [hn, hw.live]
    show (f.live r).filter (fun sid => ((g.strand w node).value r sid).asBool?.getD false) = _
    rw [strand_of_same hp hg hw hmem ht hsame]

/-- The table of a graph is that of what its terms mean. -/
theorem table_eq (hp : pipeline.Plain) (hg : pipeline.graph = .ok g) (hw : f.Describes g w) (sessions : List Nat) :
    g.table (fun _ => w) sessions = pipeline.table f sessions := by
  have hrows : g.keys (fun _ => w) sessions = pipeline.rows f sessions :=
    List.flatMap_congr fun r _ => by rw [passing_eq hp hg hw r]
  rw [TermGraph.table, TermGraph.tableOf, table, hrows, hw.date]
  congr 1
  have houtputs := (List.forall₂_and_left _ _).2 ⟨fun o ho => mem_terms.2 (.inl ⟨o, ho, rfl⟩),
    TermGraph.outputs_spec (graph_eq_ok hg)⟩
  rw [← List.forall₂_eq_eq_eq, List.forall₂_map_left_iff, List.forall₂_map_right_iff]
  refine (houtputs.imp fun o n h => ?_).flip
  obtain ⟨ho, hname, t, ht, hsame⟩ := h
  show (n.1, _) = (o.1, _)
  rw [← TermGraph.dtype_strand g w, strand_of_same hp hg hw ho ht hsame, hname]

end Pipeline

namespace Engine

variable {e : Engine} {p : Plan} {domain : Domain} {sessions : Array Date} {sids : List Sid}
  {alive : Date → Sid → Bool} {ledger? : List Date → Column → Option Ledger} {mayRefuse : Prop}
  {pipeline : Pipeline} {first : Nat} {x : Nat × Nat}

/-- What there is to know in the chunk of some sessions: of a column what its loader tells
where the days of the chunk are asked for together. -/
def chunkFacts (p : Plan) (sessions : Array Date) (sids : List Sid) (alive : Date → Sid → Bool)
    (ledger? : List Date → Column → Option Ledger) (x : Nat × Nat) : Facts where
  date r := sessions.getD r ⟨0⟩
  live r := livingOn alive sids (sessions.getD r ⟨0⟩)
  known c r q sid :=
    let node := (p.graph.index? (.ofColumn c)).getD 0
    (ledgerOf (ledger? (datesAsked p sessions x.1 x.2 node)) c).known (sessions.getD r ⟨0⟩) (sessions.getD q ⟨0⟩) sid

theorem chunkFacts_describes (hg : pipeline.graph = .ok p.graph) : (chunkFacts p sessions sids alive ledger? x).Describes
    p.graph (chunkWorld p sessions sids alive ledger? x.1 x.2) := by
  refine ⟨rfl, rfl, fun node c ht => ?_⟩
  have hc : (node, c) ∈ p.graph.columns := TermGraph.mem_columns.2 ⟨_, ht, rfl⟩
  funext r q sid
  rw [known_chunkWorld hc]
  simp only [chunkFacts, TermGraph.index?_of_getElem? (Pipeline.graph_eq_ok hg) ht, Option.getD_some]

/-- A chunk that is computed comes to what the outputs mean on its sessions, one row for each
asset that is alive and passes the screen, and there they all have a meaning. -/
theorem runChunk_eq_meaning (hs : e.Setting p sessions sids alive ledger? mayRefuse first) (hp : pipeline.Plain)
    (hg : pipeline.graph = .ok p.graph) (hfx : first ≤ x.1) (hx : x.1 ≤ x.2) (hl : x.2 < sessions.size)
    {calls : List Call} {r : Result}
    (h : ((e.runChunk p (e.chunkOf p domain sessions sids x.1 x.2)).run.run calls).1 = .ok r) :
    r = pipeline.table (chunkFacts p sessions sids alive ledger? x) (List.range' x.1 (x.2 + 1 - x.1)) ∧
    ∀ t ∈ pipeline.terms, ∀ s, x.1 ≤ s → s ≤ x.2 →
      ((t.meaning (chunkFacts p sessions sids alive ledger? x)).row? s s).isSome = true := by
  have hw := @chunkFacts_describes p sessions sids alive ledger? pipeline x hg
  rcases hs.chunk_spec domain hfx hx hl with ⟨hf, hok⟩ | ⟨-, err, herr⟩
  · refine ⟨?_, fun t ht s hlow hhigh => ?_⟩
    · rw [← Pipeline.table_eq hp hg hw]
      exact Except.ok.inj (h.symm.trans (hok calls))
    · by_cases hload : t.isLoadable = true
      · exact Term.isSome_row?_of_isLoadable hload s s
      · obtain ⟨node, t', ht', hsame⟩ := Pipeline.exists_node hg ht
        have hgiven : p.graph.isGiven node t' = false := Bool.eq_false_iff.2 fun hgiven =>
          hload (Term.isLoadable_of_same hsame ▸ TermGraph.isLoadable_of_isGiven ht' hgiven)
        rw [← Pipeline.strand_of_same hp hg hw ht ht' hsame]
        have hextra := fun node => Nat.le_trans (hs.extra node) hfx
        exact FeasibleAt.isSome_row? hextra hl hf ht' hgiven (Nat.le_trans (Nat.sub_le _ _) hlow) hhigh
  · rw [herr calls] at h
    cases h

/-! The newest number on each of three days, restated on the third. -/

/-- The newest number, as known on each day. -/
def latestPipeline : Pipeline := { columns := [("rate", .latestOfColumn Tables.rate)] }

def latestGraph : TermGraph :=
  ⟨#[.ofColumn Tables.rate, .assetExists, .latestOfColumn Tables.rate], #[[], [], [⟨0, 0, false⟩, ⟨1, 0, true⟩]],
    [("rate", 2)], none⟩

def latestPlan : Plan := ⟨latestGraph, #[0, 0, 0], #[0, 0, 1]⟩

theorem holds_latestPipeline {t : Term} (h : latestPipeline.Holds t) :
    t = .latestOfColumn Tables.rate ∨ t = .ofColumn Tables.rate ∨ t = .assetExists := by
  induction h with
  | root h => exact .inl (List.mem_singleton.1 h)
  | dependency _ hd ih =>
    rcases ih with rfl | rfl | rfl
    · rcases List.mem_cons.1 hd with rfl | hd
      · exact .inr (.inl rfl)
      · exact .inr (.inr (List.mem_singleton.1 hd))
    · cases hd
    · cases hd

theorem latestPipeline_plain : latestPipeline.Plain where
  built := ⟨List.pairwise_singleton _ _, fun t ht => List.mem_singleton.1 ht ▸ .latestOfColumn _ rfl⟩
  unmasked t ht _ := by
    rcases holds_latestPipeline ht with rfl | rfl | rfl <;> rfl
  shared a b ha hb hs := by
    rcases holds_latestPipeline ha with rfl | rfl | rfl <;> rcases holds_latestPipeline hb with rfl | rfl | rfl <;>
      first | rfl | cases hs

theorem latestPipeline_decodes : KernelsDecode latestPipeline := by
  intro g hg node t k ht hk
  rcases holds_latestPipeline (Pipeline.holds_of_graph hg ht) with rfl | rfl | rfl <;> cases hk

theorem graph_latestPipeline : latestPipeline.graph = .ok latestGraph := rfl

theorem prepare_latestPipeline (restatements : List Restatement) :
    (rateEngine restatements).prepare latestPipeline ⟨0⟩ ⟨2⟩ = .ok ⟨.market "M" threeDays, threeDays, latestGraph⟩ := rfl

theorem plan_latestPipeline : Plan.of? latestGraph threeDays.sessions.size 0 2 = .ok latestPlan := by cbv

/-- The third number is restated on the third day, and so it is what the newest number means there. -/
theorem runChunk_eq_meaning_restated :
    latestPipeline.table (chunkFacts latestPlan threeDays.sessions
        ((rateEngine [Tables.rateKnown 6 ⟨2⟩]).assetsFor latestPlan) (fun date sid => oneLife.isAlive sid date)
        ((rateEngine [Tables.rateKnown 6 ⟨2⟩]).loaders.told? [Tables.rates [Tables.rateKnown 6 ⟨2⟩]]) (0, 2))
      (List.range' 0 3) = ⟨#[⟨0⟩, ⟨1⟩, ⟨2⟩], #[⟨1⟩, ⟨1⟩, ⟨1⟩], [("rate", .ints [1, 1, 6])]⟩ := by
  have hmarket : latestPipeline.domainOr (rateEngine [Tables.rateKnown 6 ⟨2⟩]).domain =
      .ok (.market "M" threeDays) := rfl
  have htold := (rateEngine_overTables (Tables.reached_rates_nil.restate_rates 6 ⟨2⟩ ⟨2⟩ ⟨2⟩)).told
    (fun _ _ => rateEngine_wellFormed hmarket) latestPipeline_decodes
  have hjob : (rateEngine [Tables.rateKnown 6 ⟨2⟩]).prepare latestPipeline ⟨0⟩ ⟨2⟩ =
      .ok ⟨.market "M" threeDays, threeDays, latestGraph⟩ := rfl
  have hplan : Plan.of? latestGraph threeDays.sessions.size 0 2 = .ok latestPlan := by cbv
  have hrun : (((rateEngine [Tables.rateKnown 6 ⟨2⟩]).runChunk latestPlan ((rateEngine [Tables.rateKnown 6 ⟨2⟩]).chunkOf
      latestPlan (.market "M" threeDays) threeDays.sessions
      ((rateEngine [Tables.rateKnown 6 ⟨2⟩]).assetsFor latestPlan) 0 2)).run.run []).1 =
      .ok ⟨#[⟨0⟩, ⟨1⟩, ⟨2⟩], #[⟨1⟩, ⟨1⟩, ⟨1⟩], [("rate", .ints [1, 1, 6])]⟩ := by cbv
  exact (runChunk_eq_meaning (x := (0, 2)) (htold.setting hjob hplan) latestPipeline_plain graph_latestPipeline
    (Nat.zero_le 0) (Nat.zero_le 2) (by decide) hrun).1.symm

end Engine
end AsOf
