import AsOf.Proofs.Chunks

/-!
# Nothing is known ahead of time

Two engines over tables that are one up to a day, in what the tables hold, in what is
restated by then and in who is alive, end their runs with the same rows up to that day,
whatever happens later, and even if a later restatement changes values of earlier days.

* `Tables.AgreeUpTo.known_eq`: what is known by the day is the same.
* `Engine.agreeUpTo_worlds`: so the worlds of all chunks are one up to the day.
* `Engine.no_look_ahead`: and so are the results.
-/
namespace AsOf

/-! ## Tables that are one up to a day -/

/-- Two tables hold the same for the days up to a day, and what is restated by then is the
same, in the same order. -/
structure Table.AgreeUpTo (day : Date) (dates : List Date) (a b : Table) : Prop where
  stored : ∀ (i : Nat) (d : Date), dates[i]? = some d → d ≤ day → ∀ j, a.values.get? i j = b.values.get? i j
  restated : (a.restatements.filter fun x => decide (x.known ≤ day)) =
    b.restatements.filter fun x => decide (x.known ≤ day)

/-- The tables of the same columns over the same days and assets are one up to a day. -/
structure Tables.AgreeUpTo (day : Date) (a b : Tables) : Prop where
  dates : a.dates = b.dates
  sids : a.sids = b.sids
  tables : ∀ name, Option.Rel (Table.AgreeUpTo day a.dates) (a.tables.get? name) (b.tables.get? name)

namespace Tables.AgreeUpTo

variable {day : Date} {a b : Tables}

theorem stored_eq (h : a.AgreeUpTo day b) {x y : Table} (hxy : x.AgreeUpTo day a.dates y) (missing : Scalar)
    {d : Date} (hd : d ≤ day) (sid : Sid) : a.stored x missing d sid = b.stored y missing d sid := by
  rw [stored, stored, ← h.dates, ← h.sids]
  cases hi : lastIndex? d a.dates with
  | none => rfl
  | some i =>
    simp only [Option.bind_some]
    rw [show x.values.get? i = y.values.get? i from funext (hxy.stored i d (getElem?_of_lastIndex? hi) hd)]

/-- What is known on a day up to the day is the same. -/
theorem known_eq (h : a.AgreeUpTo day b) {dates : List Date} (hdates : Ascending dates) (c : Column)
    {d p : Date} (hd : d ≤ p) (hp : p ≤ day) (sid : Sid) :
    (ledgerOf (a.ledger? dates) c).known d p sid = (ledgerOf (b.ledger? dates) c).known d p sid := by
  have hrel := h.tables (key c)
  unfold ledgerOf ledger?
  generalize a.tables.get? (key c) = x at *
  generalize b.tables.get? (key c) = y at *
  cases hrel with
  | none => rfl
  | @some x y hxy =>
    have hknown (xs : List Restatement) : (xs.filter fun x => decide (x.known ≤ day)).filter
        (fun x => decide (x.known ≤ p)) = xs.filter fun x => decide (x.known ≤ p) := by
      rw [List.filter_filter]
      refine List.filter_congr fun x _ => ?_
      rw [← Bool.decide_and, decide_eq_decide]
      exact and_iff_left_of_imp fun hx => Int.le_trans hx hp
    show Restatements.onValue (Restatements.seen x.restatements dates d p sid) (a.stored x c.missing d sid) =
      Restatements.onValue (Restatements.seen y.restatements dates d p sid) (b.stored y c.missing d sid)
    rw [h.stored_eq hxy c.missing (Int.le_trans hd hp), ← Restatements.seen_filter hdates x.restatements,
      ← Restatements.seen_filter hdates y.restatements, ← hknown x.restatements, ← hknown y.restatements,
      hxy.restated]

end Tables.AgreeUpTo

namespace Engine

/-! ## Engines that are one up to a day -/

/-- Two engines of one market with the same settings are one up to a day. -/
structure AgreeUpTo (day : Date) (e e' : Engine) (m m' : Lifetimes) (ts ts' : List Tables) : Prop where
  domain : e.domain = e'.domain
  config : e.config = e'.config
  routing : e.loaders.byDataset = e'.loaders.byDataset
  tables : List.Forall₂ (Tables.AgreeUpTo day) ts ts'
  lives : ∀ sid date, date ≤ day → m.isAlive sid date = m'.isAlive sid date

variable {e e' : Engine} {m m' : Lifetimes} {ts ts' : List Tables} {day : Date} {pipeline : Pipeline}
  {start stop : Date} {size : Nat} {p : Plan} {sessions : Array Date}

/-- The assets that are alive on a day up to the day are the same. -/
theorem AgreeUpTo.living_eq (h : AgreeUpTo day e e' m m' ts ts') (ho : e.OverTables m ts) (ho' : e'.OverTables m' ts')
    (p : Plan) {date : Date} (hd : date ≤ day) :
    livingOn (fun date sid => m.isAlive sid date) (e.assetsFor p) date =
      livingOn (fun date sid => m'.isAlive sid date) (e'.assetsFor p) date := by
  have hirrefl : Std.Irrefl fun a b : Sid => a < b := ⟨fun a => UInt32.lt_irrefl a.id⟩
  have hanti : Std.Antisymm fun a b : Sid => a < b := ⟨fun a b h h' => absurd h (UInt32.lt_asymm h')⟩
  have hliving : m.toUniverse.sids.filter (m.isAlive · date) = m'.toUniverse.sids.filter (m'.isAlive · date) := by
    refine List.Pairwise.eq_of_mem_iff (r := (· < ·)) (List.Pairwise.filter _ (List.pairwise_map.2 ho.ordered))
      (List.Pairwise.filter _ (List.pairwise_map.2 ho'.ordered)) fun sid => ?_
    have hmem {m : Lifetimes} (hm : m.Ordered) : sid ∈ m.toUniverse.sids.filter (m.isAlive · date) ↔
        m.isAlive sid date = true := by
      rw [List.mem_filter]
      refine and_iff_right_of_imp fun halive => ?_
      obtain ⟨x, hx, rfl, -⟩ := (m.isAlive_iff hm).1 halive
      exact List.mem_map_of_mem hx
    rw [hmem ho.ordered, hmem ho'.ordered, h.lives sid date hd]
  unfold livingOn assetsFor
  rw [ho.assets, ho'.assets, h.config]
  split
  · rw [List.filter_comm, hliving, List.filter_comm]
  · exact hliving

theorem AgreeUpTo.known_eq (h : AgreeUpTo day e e' m m' ts ts') {dates : List Date} (hdates : Ascending dates)
    (c : Column) {d p : Date} (hd : d ≤ p) (hp : p ≤ day) (sid : Sid) :
    (ledgerOf (e.loaders.told? ts dates) c).known d p sid =
      (ledgerOf (e'.loaders.told? ts' dates) c).known d p sid := by
  have hts (place : Nat) : Option.Rel (Tables.AgreeUpTo day) ts[place]? ts'[place]? := by
    have hlength := h.tables.length_eq
    by_cases hlt : place < ts.length
    · rw [List.getElem?_eq_getElem hlt, List.getElem?_eq_getElem (hlength ▸ hlt)]
      exact .some ((List.forall₂_iff_get.1 h.tables).2 place hlt (hlength ▸ hlt))
    · rw [List.getElem?_eq_none (Nat.le_of_not_lt hlt), List.getElem?_eq_none (hlength ▸ Nat.le_of_not_lt hlt)]
      exact .none
  unfold ledgerOf Loaders.told? Loaders.tables?
  rw [h.routing]
  cases e'.loaders.byDataset.lookup c.dataset with
  | none => rfl
  | some place =>
    have hrel := hts place
    show ((ts[place]?.bind fun t => t.ledger? dates c).getD _).known d p sid =
      ((ts'[place]?.bind fun t => t.ledger? dates c).getD _).known d p sid
    generalize ts[place]? = a at *
    generalize ts'[place]? = b at *
    cases hrel with
    | none => rfl
    | some hab => exact hab.known_eq hdates c hd hp sid

/-- The worlds of a session up to the day are one up to the session. -/
theorem AgreeUpTo.worlds_agree (h : AgreeUpTo day e e' m m' ts ts') (ho : e.OverTables m ts)
    (ho' : e'.OverTables m' ts') (p : Plan) (hs : Ascending sessions.toList) (ranges : List (Nat × Nat))
    {r : Nat} (hr : r < sessions.size) (hday : sessions.getD r ⟨0⟩ ≤ day) :
    (worlds p sessions (e.assetsFor p) (fun date sid => m.isAlive sid date) (e.loaders.told? ts) ranges r).AgreeUpTo r
      (worlds p sessions (e'.assetsFor p) (fun date sid => m'.isAlive sid date) (e'.loaders.told? ts') ranges r) := by
  have hle {i j : Nat} (hij : i ≤ j) (hj : j ≤ r) : sessions.getD i ⟨0⟩ ≤ sessions.getD j ⟨0⟩ := by
    rcases Nat.eq_or_lt_of_le hij with rfl | hlt
    · exact Int.le_refl _
    · rw [Array.getD_eq_getD_getElem?, Array.getD_eq_getD_getElem?, Array.getElem?_eq_getElem (by omega),
        Array.getElem?_eq_getElem (by omega)]
      exact Int.le_of_lt (List.pairwise_iff_getElem.1 hs i j (by rw [Array.length_toList]; omega)
        (by rw [Array.length_toList]; omega) hlt)
  refine ⟨fun _ _ => rfl, fun i hi => ?_, fun node i j hij hj => funext fun sid => ?_⟩
  · exact h.living_eq ho ho' p (Int.le_trans (hle hi (Nat.le_refl r)) hday)
  · have hdates (first last node : Nat) : Ascending (datesAsked p sessions first last node) := by
      rw [datesAsked, Array.toList_extract, List.extract_eq_take_drop]
      exact List.Pairwise.take (List.Pairwise.drop hs)
    simp only [worlds, chunkWorld]
    cases p.graph.terms[node]?.bind Term.column? with
    | none => rfl
    | some c => exact h.known_eq (hdates ..) c (hle hij hj) (Int.le_trans (hle hj (Nat.le_refl r)) hday) sid

/-! ## Runs -/

/-- Engines of one market prepare a run alike. -/
theorem prepare_agree (hd : e.domain = e'.domain) {job job' : Job} (h : e.prepare pipeline start stop = .ok job)
    (h' : e'.prepare pipeline start stop = .ok job') : job = job' := by
  obtain ⟨-, hdomain, hcalendar, hgraph, -⟩ := prepare_eq_ok.1 h
  obtain ⟨-, hdomain', hcalendar', hgraph', -⟩ := prepare_eq_ok.1 h'
  obtain ⟨domain, calendar, graph⟩ := job
  obtain ⟨domain', calendar', graph'⟩ := job'
  obtain rfl : domain = domain' := Except.ok.inj (hdomain.symm.trans (hd ▸ hdomain'))
  obtain rfl : calendar = calendar' := Except.ok.inj (hcalendar.symm.trans hcalendar')
  obtain rfl : graph = graph' := Except.ok.inj (hgraph.symm.trans hgraph')
  rfl

/-- Engines that are one up to a day have the same rows up to the day. -/
theorem no_look_ahead (h : AgreeUpTo day e e' m m' ts ts') (ho : e.OverTables m ts) (ho' : e'.OverTables m' ts')
    (hc : ∀ domain calendar, pipeline.domainOr e.domain = .ok domain → domain.calendar? = some calendar →
      calendar.WellFormed) (hk : KernelsDecode pipeline)
    {cancelled cancelled' : Cancellation} {calls calls' : List Call} {r r' : Result}
    (hr : ((e.runChunked pipeline start stop size cancelled).run.run calls).1 = .ok r)
    (hr' : ((e'.runChunked pipeline start stop size cancelled').run.run calls').1 = .ok r') :
    r.restrict (fun d => decide (d ≤ day)) = r'.restrict fun d => decide (d ≤ day) := by
  obtain ⟨-, job, calls₁, hj, hwork⟩ := runChunked_of_ok hr
  obtain ⟨-, job', calls₁', hj', hwork'⟩ := runChunked_of_ok hr'
  obtain rfl := prepare_agree h.domain hj hj'
  obtain ⟨-, hdomain, hcalendar, hgraph, -⟩ := prepare_eq_ok.1 hj
  have hwell := hc _ _ hdomain (calendarFor_eq_ok.1 hcalendar).1
  rcases work_of_ok (ho.told hc hk) hj hwork with ⟨hnone, rfl⟩ | ⟨first, last, p, hrange, hp, -, rfl⟩
  · rcases work_of_ok (ho'.told (h.domain ▸ hc) hk) hj' hwork' with ⟨-, rfl⟩ | ⟨first, last, p, hrange, -⟩
    · rfl
    · rw [hnone] at hrange
      cases hrange
  · rcases work_of_ok (ho'.told (h.domain ▸ hc) hk) hj' hwork' with
      ⟨hnone, -⟩ | ⟨first', last', p', hrange', hp', -, rfl⟩
    · rw [hrange] at hnone
      cases hnone
    · obtain ⟨rfl, rfl⟩ := Prod.mk.inj (Option.some.inj (hrange.symm.trans hrange'))
      obtain rfl := Except.ok.inj (hp.symm.trans hp')
      obtain ⟨-, hfl, hl, -⟩ := Plan.of?_spec hp
      obtain ⟨hg, -⟩ := Plan.sound_of (Pipeline.graph_eq_ok hgraph) hp
      rw [TermGraph.restrict_table, TermGraph.restrict_table]
      refine TermGraph.table_eq_of_agreeUpTo (fun r hr => ?_) (TermGraph.edges_lt (Pipeline.graph_eq_ok hgraph))
      obtain ⟨hr, hday⟩ := List.mem_filter.1 hr
      have hr := List.mem_range'_1.1 hr
      exact h.worlds_agree ho ho' p hwell.ascending _ (by omega) (of_decide_eq_true hday)

/-! Numbers of three days that are all restated on the third. -/

/-- Nine, for all days, known on the third. -/
def lateNine : Restatement := ⟨⟨1⟩, .overwrite (.int 9), ⟨0⟩, ⟨2⟩, ⟨2⟩⟩

theorem rates_agreeUpTo : (Tables.rates []).AgreeUpTo ⟨1⟩ (Tables.rates [lateNine]) := by
  refine ⟨rfl, rfl, fun name => ?_⟩
  rw [Tables.rates, Tables.rates, Named.get?_cons, Named.get?_cons]
  split
  · exact .some ⟨fun _ _ _ _ _ => rfl, rfl⟩
  · exact .none

theorem rateEngine_agreeUpTo : AgreeUpTo ⟨1⟩ (rateEngine []) (rateEngine [lateNine]) oneLife oneLife
    [Tables.rates []] [Tables.rates [lateNine]] :=
  ⟨rfl, rfl, rfl, .cons rates_agreeUpTo .nil, fun _ _ _ => rfl⟩

/-- The restatement shows on the third day, and on no day before it. -/
theorem no_look_ahead_restated : ∃ r r',
    (((rateEngine []).runChunked ratePipeline ⟨0⟩ ⟨2⟩ 3 .never).run.run []).1 = .ok r ∧
    (((rateEngine [lateNine]).runChunked ratePipeline ⟨0⟩ ⟨2⟩ 3 .never).run.run []).1 = .ok r' ∧
    r.columns = [("rate", .ints [1, 1, 1])] ∧ r'.columns = [("rate", .ints [1, 1, 9])] ∧
    r.restrict (fun d => decide (d ≤ ⟨1⟩)) = r'.restrict fun d => decide (d ≤ ⟨1⟩) := by
  have hr : (((rateEngine []).runChunked ratePipeline ⟨0⟩ ⟨2⟩ 3 .never).run.run []).1 =
      .ok ⟨#[⟨0⟩, ⟨1⟩, ⟨2⟩], #[⟨1⟩, ⟨1⟩, ⟨1⟩], [("rate", .ints [1, 1, 1])]⟩ := by cbv
  have hr' : (((rateEngine [lateNine]).runChunked ratePipeline ⟨0⟩ ⟨2⟩ 3 .never).run.run []).1 =
      .ok ⟨#[⟨0⟩, ⟨1⟩, ⟨2⟩], #[⟨1⟩, ⟨1⟩, ⟨1⟩], [("rate", .ints [1, 1, 9])]⟩ := by cbv
  refine ⟨_, _, hr, hr', rfl, rfl, no_look_ahead rateEngine_agreeUpTo (rateEngine_overTables Tables.reached_rates_nil)
    (rateEngine_overTables (Tables.reached_rates_nil.restate_rates 9 ⟨0⟩ ⟨2⟩ ⟨2⟩)) (fun _ _ => rateEngine_wellFormed rfl)
    ratePipeline_decodes hr hr'⟩

end Engine
end AsOf
