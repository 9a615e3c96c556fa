import AsOf.Proofs.Lifetimes
import AsOf.Proofs.Loader.Over
import AsOf.Proofs.Rows

/-!
# Runs over tables

An engine of lifetimes and tables tells what its tables tell. Where the restatements of
every value came in the order in which they became known, that is one ledger for each
column, and so neither the size of its chunks nor the rest of its range shows in a result.

* `Engine.OverTables.told`: what is told of an engine over tables.
* `Engine.OverTables.told_known`: where restatements came in order, it does not depend on
  what is asked for together.
* `Engine.chunks_do_not_show`: runs in chunks of any size end alike, and those over part of
  a range end with the rows of the part.
-/
namespace AsOf.Engine

/-- An engine of lifetimes and tables. -/
structure OverTables (e : Engine) (m : Lifetimes) (ts : List Tables) : Prop where
  assets : e.assets = m.toUniverse
  ordered : m.Ordered
  loaders : e.loaders.Over ts

variable {e : Engine} {m : Lifetimes} {ts : List Tables} {pipeline : Pipeline} {start stop : Date}

theorem OverTables.told (ho : e.OverTables m ts) (hc : ∀ domain calendar, pipeline.domainOr e.domain = .ok domain →
    domain.calendar? = some calendar → calendar.WellFormed) (hk : KernelsDecode pipeline) :
    e.Told pipeline (fun date sid => m.isAlive sid date) (e.loaders.told? ts) True where
  assets := ho.assets ▸ m.pointwise ho.ordered
  keep _ _ := ho.loaders.keep fun _ => trivial
  calendar := hc
  kernels := hk

/-- Columns that suit their tables, all of whose restatements came in order, are told of by
one ledger each. -/
theorem OverTables.told_known (ho : e.OverTables m ts) (hc : ∀ domain calendar,
    pipeline.domainOr e.domain = .ok domain → domain.calendar? = some calendar → calendar.WellFormed)
    (hk : KernelsDecode pipeline) (hord : ∀ g, pipeline.graph = .ok g → ∀ c, g.Asks c → ¬e.loaders.Misfit ts c ∧
      ∀ t ∈ e.loaders.tables? ts c, t.InOrder c) :
    e.Told pipeline (fun date sid => m.isAlive sid date) (fun _ => e.loaders.known? ts) False where
  assets := ho.assets ▸ m.pointwise ho.ordered
  keep g hg := ho.loaders.keep_known (fun c hc => (hord g hg c hc).2) fun ⟨c, hc, hmis⟩ => (hord g hg c hc).1 hmis
  calendar := hc
  kernels := hk

/-- Where loaders keep one ledger for each column, a run ends well in chunks of one size if it
does in chunks of another, and with the same result. It then ends well over every part of
its range, with the rows of that part. -/
theorem chunks_do_not_show {alive : Date → Sid → Bool} {ledger? : Column → Option Ledger} (hb : pipeline.Built)
    (ht : e.Told pipeline alive (fun _ => ledger?) False) {size size' : Nat} (hs : 1 ≤ size) (hs' : 1 ≤ size')
    (calls : List Call) (r : Result) :
    (((e.runChunked pipeline start stop size .never).run.run calls).1 = .ok r ↔
      ((e.runChunked pipeline start stop size' .never).run.run calls).1 = .ok r) ∧
    (((e.runChunked pipeline start stop size .never).run.run calls).1 = .ok r →
      ∀ start' stop', start ≤ start' → start' ≤ stop' → stop' ≤ stop →
        ((e.runChunked pipeline start' stop' size' .never).run.run calls).1 =
          .ok (r.restrict fun d => decide (start' ≤ d) && decide (d ≤ stop'))) := by
  have hpart {size size' : Nat} (hs' : 1 ≤ size')
      (h : ((e.runChunked pipeline start stop size .never).run.run calls).1 = .ok r) :
      ((e.runChunked pipeline start stop size' .never).run.run calls).1 = .ok r := by
    obtain ⟨hle, hself⟩ := restrict_self hb ht h
    have hwhole := runChunked_part hb ht h (Int.le_refl _) hle (Int.le_refl _) hs' calls
    rwa [hself] at hwhole
  refine ⟨⟨hpart hs', hpart hs⟩, fun h start' stop' hlow hle hhigh => ?_⟩
  exact runChunked_part hb ht h hlow hle hhigh hs' calls

/-! A number on three days that is restated on the third, in one chunk and day by day. -/

/-- An asset that is alive on all three days. -/
def oneLife : Lifetimes := [(⟨1⟩, [(⟨0⟩, ⟨2⟩)])]

/-- An engine over the numbers of three days. -/
def rateEngine (restatements : List Restatement) : Engine :=
  ⟨Loaders.empty.register "Rates" ((Tables.rates restatements).loader 1), oneLife.toUniverse,
    .market "M" threeDays, .default⟩

/-- The numbers as they are. -/
def ratePipeline : Pipeline := { columns := [("rate", .ofColumn Tables.rate)] }

theorem ratePipeline_built : ratePipeline.Built where
  ordered := List.pairwise_singleton _ _
  terms t ht := by
    obtain rfl := List.mem_singleton.1 ht
    exact .ofColumn _ rfl

theorem terms_ratePipeline {g : TermGraph} (hg : ratePipeline.graph = .ok g) {node : Nat} {t : Term}
    (ht : g.terms[node]? = some t) : t = .ofColumn Tables.rate := by
  refine TermGraph.forall_terms (Pipeline.graph_eq_ok hg) (P := (· = .ofColumn Tables.rate)) (fun t ht dep hd => ?_)
    (fun t ht => List.mem_singleton.1 ht) ht
  subst ht
  cases hd

theorem ratePipeline_decodes : KernelsDecode ratePipeline := by
  intro g hg node t k ht hk
  rw [terms_ratePipeline hg ht] at hk
  cases hk

theorem rateEngine_wellFormed {restatements : List Restatement} {domain : Domain} {calendar : Calendar}
    (hmarket : pipeline.domainOr (rateEngine restatements).domain = .ok (.market "M" threeDays))
    (hdomain : pipeline.domainOr (rateEngine restatements).domain = .ok domain)
    (hcalendar : domain.calendar? = some calendar) : calendar.WellFormed := by
  obtain rfl := Except.ok.inj (hmarket.symm.trans hdomain)
  obtain rfl := Option.some.inj hcalendar
  exact threeDays_wellFormed

theorem rateEngine_overTables {restatements : List Restatement} (h : (Tables.rates restatements).Reached) :
    (rateEngine restatements).OverTables oneLife [Tables.rates restatements] := by
  refine ⟨rfl, List.pairwise_singleton _ _, .cons rfl .nil, fun t ht => ?_, fun t ht name table hg => ?_⟩
  · exact List.mem_singleton.1 ht ▸ h
  · rw [List.mem_singleton.1 ht] at hg
    rw [Tables.table_rates hg]
    exact Block.distinct_full (.int 1) (3, 1)

theorem tables_rateEngine (restatements : List Restatement) :
    (rateEngine restatements).loaders.tables? [Tables.rates restatements] Tables.rate =
      some (Tables.rates restatements) := rfl

theorem rateEngine_fits (restatements : List Restatement) :
    ¬(rateEngine restatements).loaders.Misfit [Tables.rates restatements] Tables.rate := by
  rintro ⟨t, ht, table, htable, hdtype⟩
  obtain rfl := Option.some.inj ((tables_rateEngine restatements).symm.trans ht)
  rw [Tables.table_rates htable] at hdtype
  exact hdtype rfl

/-- Restatements that came in the order in which they became known keep the numbers in order. -/
theorem rateEngine_in_order {restatements : List Restatement} (h : restatements.Pairwise fun x y => x.known ≤ y.known)
    (g : TermGraph) (hg : ratePipeline.graph = .ok g) (c : Column) (hc : g.Asks c) :
    ¬(rateEngine restatements).loaders.Misfit [Tables.rates restatements] c ∧
      ∀ t ∈ (rateEngine restatements).loaders.tables? [Tables.rates restatements] c, t.InOrder c := by
  obtain ⟨node, hnode⟩ := hc
  obtain ⟨t, ht, hcol⟩ := TermGraph.mem_columns.1 hnode
  rw [terms_ratePipeline hg ht] at hcol
  obtain rfl := Option.some.inj hcol
  refine ⟨rateEngine_fits restatements, fun t ht table htable d sid => ?_⟩
  obtain rfl := Option.some.inj ((tables_rateEngine restatements).symm.trans ht)
  rw [Tables.table_rates htable]
  exact h.filter _

/-- In chunks of three sessions and of one, the numbers are the same. -/
theorem chunks_do_not_show_restated :
    (((rateEngine [Tables.rateKnown 5 ⟨1⟩, Tables.rateKnown 6 ⟨2⟩]).runChunked ratePipeline ⟨0⟩ ⟨2⟩ 3 .never).run.run []).1 =
      .ok ⟨#[⟨0⟩, ⟨1⟩, ⟨2⟩], #[⟨1⟩, ⟨1⟩, ⟨1⟩], [("rate", .ints [1, 1, 6])]⟩ ∧
    (((rateEngine [Tables.rateKnown 5 ⟨1⟩, Tables.rateKnown 6 ⟨2⟩]).runChunked ratePipeline ⟨0⟩ ⟨2⟩ 1 .never).run.run []).1 =
      .ok ⟨#[⟨0⟩, ⟨1⟩, ⟨2⟩], #[⟨1⟩, ⟨1⟩, ⟨1⟩], [("rate", .ints [1, 1, 6])]⟩ := by
  have hrun : (((rateEngine [Tables.rateKnown 5 ⟨1⟩, Tables.rateKnown 6 ⟨2⟩]).runChunked ratePipeline ⟨0⟩ ⟨2⟩ 3
      .never).run.run []).1 = .ok ⟨#[⟨0⟩, ⟨1⟩, ⟨2⟩], #[⟨1⟩, ⟨1⟩, ⟨1⟩], [("rate", .ints [1, 1, 6])]⟩ := by cbv
  have htold := @OverTables.told_known _ _ _ ratePipeline (rateEngine_overTables (Tables.reached_rates 5 6 ⟨1⟩ ⟨2⟩))
    (fun _ _ => rateEngine_wellFormed rfl) ratePipeline_decodes (rateEngine_in_order (by decide))
  exact ⟨hrun, (chunks_do_not_show ratePipeline_built htold (by decide) (by decide) [] _).1.1 hrun⟩

end AsOf.Engine
