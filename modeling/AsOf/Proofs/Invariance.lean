import AsOf.Proofs.Run.Whole

/-!
# Chunks and ranges do not show

Where the loaders of an engine keep one ledger for each column, whatever days are asked
for together, all chunks of a run are stretches of one world. What a run comes to then
depends neither on the size of its chunks nor on the range of dates it is cut from.

* `Engine.feasibleAt_iff`: a chunk can be computed if its sessions can.
* `Engine.runChunked_part`: a run that ends well does so in chunks of any size, over
  any part of its range.
-/
namespace AsOf

/-! ## Sessions of a part of a range -/

namespace Engine

/-- There are no sessions on the days of a range without sessions. -/
theorem sessionRange?_eq_none {calendar : Calendar} (hc : calendar.WellFormed) {start stop : Date}
    (h : sessionRange? calendar start stop = none) {i : Nat} {d : Date} (hd : calendar.sessions[i]? = some d) :
    ¬(start ≤ d ∧ d ≤ stop) := by
  rintro ⟨hlow, hhigh⟩
  have hlt := (partitionPoint_lt hc.ascending start).2 i d hd
  have hle := (partitionPoint_le hc.ascending stop).2 i d hd
  have hsize := (Array.getElem?_eq_some_iff.1 hd).1
  have hfirst : partitionPoint (· < start) calendar.sessions ≤ i := by
    refine Nat.le_of_not_lt fun hi => ?_
    have := Date.lt_iff.1 (hlt.2 hi)
    rw [Date.le_iff] at hlow
    omega
  have hlast : i < partitionPoint (· ≤ stop) calendar.sessions := hle.1 hhigh
  obtain ⟨n, hn⟩ : ∃ n, partitionPoint (· ≤ stop) calendar.sessions = n + 1 := ⟨_, (Nat.succ_pred_eq_of_pos
    (Nat.lt_of_le_of_lt (Nat.zero_le i) hlast)).symm⟩
  have hsome : sessionRange? calendar start stop =
      some (partitionPoint (· < start) calendar.sessions, n) := by
    refine sessionRange?_eq_some.2 ⟨if_pos (Nat.lt_of_le_of_lt hfirst hsize), ?_, by omega⟩
    rw [Calendar.indexOnOrBefore?, Calendar.countThrough, hn]
  rw [hsome] at h
  cases h

/-- Whether a session lies on the days of a range. -/
def dated (calendar : Calendar) (start stop : Date) (r : Nat) : Bool :=
  decide (start ≤ calendar.sessions.getD r ⟨0⟩) && decide (calendar.sessions.getD r ⟨0⟩ ≤ stop)

theorem dated_iff {calendar : Calendar} {start stop : Date} {r : Nat} {d : Date}
    (hd : calendar.sessions[r]? = some d) : dated calendar start stop r = true ↔ start ≤ d ∧ d ≤ stop := by
  rw [dated, Array.getD_eq_getD_getElem?, hd, Bool.and_eq_true_iff, decide_eq_true_iff, decide_eq_true_iff]
  rfl

/-- The sessions on the days of a part of a range. -/
theorem filter_dated {calendar : Calendar} (hc : calendar.WellFormed) {start stop : Date}
    {first last first' last' : Nat} (hl : last < calendar.sessions.size)
    (h : sessionRange? calendar start stop = some (first', last')) (hf : first ≤ first') (hl' : last' ≤ last) :
    (List.range' first (last + 1 - first)).filter (dated calendar start stop) =
      List.range' first' (last' + 1 - first') := by
  obtain ⟨-, -, hlow, hhigh⟩ := sessionRange?_spec hc h
  refine List.Pairwise.eq_of_mem_iff (r := (· < ·)) (List.Pairwise.filter _ List.pairwise_lt_range')
    List.pairwise_lt_range' fun r => ?_
  rw [List.mem_filter, List.mem_range'_1, List.mem_range'_1]
  constructor
  · rintro ⟨hr, hd⟩
    have hget : calendar.sessions[r]? = some _ := Array.getElem?_eq_getElem (by omega)
    have := (dated_iff hget).1 hd
    have := (hlow r _ hget).1 this.1
    have := (hhigh r _ hget).1 ((dated_iff hget).1 hd).2
    omega
  · intro hr
    have hget : calendar.sessions[r]? = some _ := Array.getElem?_eq_getElem (by omega)
    exact ⟨by omega, (dated_iff hget).2 ⟨(hlow r _ hget).2 (by omega), (hhigh r _ hget).2 (by omega)⟩⟩

/-- There are none of them if the part has none. -/
theorem filter_dated_eq_nil {calendar : Calendar} (hc : calendar.WellFormed) {start stop : Date}
    {first last : Nat} (hl : last < calendar.sessions.size) (h : sessionRange? calendar start stop = none) :
    (List.range' first (last + 1 - first)).filter (dated calendar start stop) = [] := by
  refine List.filter_eq_nil_iff.2 fun r hr hd => ?_
  have hr := List.mem_range'_1.1 hr
  have hget : calendar.sessions[r]? = some _ := Array.getElem?_eq_getElem (by omega)
  exact sessionRange?_eq_none hc h hget ((dated_iff hget).1 hd)

end Engine

/-- A graph that can be planned for a range can be planned for a part of it in the same way. -/
theorem Plan.of?_of_le {g : TermGraph} {sessions first last first' last' : Nat} {p : Plan}
    (h : Plan.of? g sessions first last = .ok p) (hf : first ≤ first') (hfl : first' ≤ last')
    (hl : last' ≤ last) : Plan.of? g sessions first' last' = .ok p := by
  obtain ⟨hp, hfl', hls, -⟩ := of?_spec h
  unfold of? at h ⊢
  rw [if_neg (by simp; omega)] at h ⊢
  cases hd : deepest? (extraRows g) with
  | none =>
    simp only [hd] at h ⊢
    exact h
  | some found =>
    obtain ⟨node, rows⟩ := found
    simp only [hd] at h ⊢
    by_cases hr : first < rows.toNat
    · rw [if_pos hr] at h
      cases h
    · rw [if_neg hr] at h
      rw [if_neg (by omega)]
      exact h

namespace Engine

variable {e : Engine} {p : Plan} {domain : Domain} {sessions : Array Date} {sids : List Sid}
  {alive : Date → Sid → Bool} {ledger? : Column → Option Ledger} {first last : Nat}

/-! ## One world -/

/-- The world of all chunks, where ledgers do not depend on what is asked for together. -/
def world (p : Plan) (sessions : Array Date) (sids : List Sid) (alive : Date → Sid → Bool)
    (ledger? : Column → Option Ledger) : World :=
  chunkWorld p sessions sids alive (fun _ => ledger?) 0 0

/-- What the sessions `first` to `last` need to be computed. -/
structure FeasibleOver (e : Engine) (p : Plan) (w : World) (ledger? : Column → Option Ledger)
    (first last : Nat) : Prop where
  loadable : ∀ gs, Run.groups e.loaders p = .ok gs → ∀ g ∈ gs,
    Run.Distinct g.members ∧ Run.Suited ledger? g.members
  fits : ∀ node t, p.graph.terms[node]? = some t → p.graph.isGiven node t = false → p.FitsAt node t
  rows : ∀ node t, p.graph.terms[node]? = some t → p.graph.isGiven node t = false → ∀ r,
    first - (p.extraOf node).toNat ≤ r → r ≤ last → ((p.graph.strand w node).row? r r).isSome = true
  screen : p.ScreenIsBool

section

variable {x : Nat × Nat} (hx : ∀ node, (p.extraOf node).toNat ≤ x.1)

include hx

theorem sessionOf_chunkOf (node i : Nat) : (e.chunkOf p domain sessions sids x.1 x.2).sessionOf (startOf p x.1)
    (p.extraOf node) i = x.1 - (p.extraOf node).toNat + i := by
  have hmax : p.maxExtra.toNat ≤ x.1 := Plan.maxExtra_le hx
  have := UInt64.le_iff_toNat_le.1 (Plan.extraOf_le_maxExtra (p := p) node)
  rw [Chunk.sessionOf, Chunk.firstRow, history_chunkOf, startOf]
  omega

theorem rowsOf_chunkOf (hl : x.2 < sessions.size) (node : Nat) :
    (e.chunkOf p domain sessions sids x.1 x.2).rowsOf (p.extraOf node) =
      x.2 + 1 - (x.1 - (p.extraOf node).toNat) := by
  have hmax : p.maxExtra.toNat ≤ x.1 := Plan.maxExtra_le hx
  have := UInt64.le_iff_toNat_le.1 (Plan.extraOf_le_maxExtra (p := p) node)
  have := hx node
  rw [Chunk.rowsOf, Chunk.firstRow, history_chunkOf, length_dates_chunkOf hl, startOf]
  omega

/-- Where a chunk can be computed, a computed node has a row for each of its sessions. -/
theorem FeasibleAt.isSome_row? {ledger? : List Date → Column → Option Ledger} (hl : x.2 < sessions.size)
    (h : e.FeasibleAt p domain sessions sids alive ledger? x) {node : Nat} {t : Term}
    (ht : p.graph.terms[node]? = some t) (hg : p.graph.isGiven node t = false) {r : Nat}
    (hlow : x.1 - (p.extraOf node).toNat ≤ r) (hr : r ≤ x.2) :
    ((p.graph.strand (chunkWorld p sessions sids alive ledger? x.1 x.2) node).row? r r).isSome = true := by
  have := (h.computable node t ht hg).2 (r - (x.1 - (p.extraOf node).toNat)) (by rw [rowsOf_chunkOf hx hl]; omega)
  rwa [sessionOf_chunkOf hx, Nat.add_sub_cancel' hlow] at this

end

/-- Where all chunks can be computed, a computed node has a row for each of the sessions. -/
theorem isSome_row?_worlds {ledger? : List Date → Column → Option Ledger} {size : Nat}
    (hx : ∀ node, (p.extraOf node).toNat ≤ first) (hl : last < sessions.size)
    (h : ∀ x ∈ chunkRanges size first last, e.FeasibleAt p domain sessions sids alive ledger? x) {node : Nat} {t : Term}
    (ht : p.graph.terms[node]? = some t) (hg : p.graph.isGiven node t = false) {r : Nat}
    (hr : r ∈ List.range' first (last + 1 - first)) :
    ((p.graph.strand (worlds p sessions sids alive ledger? (chunkRanges size first last) r) node).row? r r).isSome =
      true := by
  rw [← chunkRanges_flatMap size first last] at hr
  obtain ⟨x, hmem, hr⟩ := List.mem_flatMap.1 hr
  have hr := List.mem_range'_1.1 hr
  have hin : x.1 ≤ r ∧ r ≤ x.2 := ⟨hr.1, by omega⟩
  obtain ⟨hfirst, -, hlast⟩ := mem_chunkRanges hmem
  rw [worlds, rangeOf_chunkRanges hmem hin]
  exact FeasibleAt.isSome_row? (fun node => Nat.le_trans (hx node) hfirst) (Nat.lt_of_le_of_lt hlast hl) (h x hmem) ht hg
    (Nat.le_trans (Nat.sub_le _ _) hin.1) hin.2

/-- A chunk can be computed if its sessions can. -/
theorem feasibleAt_iff {x : Nat × Nat} (hx : ∀ node, (p.extraOf node).toNat ≤ x.1) (hl : x.2 < sessions.size) :
    e.FeasibleAt p domain sessions sids alive (fun _ => ledger?) x ↔
      e.FeasibleOver p (world p sessions sids alive ledger?) ledger? x.1 x.2 := by
  constructor
  · intro h
    exact ⟨h.loadable, fun node t ht hg => (h.computable node t ht hg).1,
      fun node t ht hg r hlow hhigh => FeasibleAt.isSome_row? hx hl h ht hg hlow hhigh, h.screen⟩
  · intro h
    refine ⟨h.loadable, fun node t ht hg => ⟨h.fits node t ht hg, fun i hi => ?_⟩, h.screen⟩
    rw [rowsOf_chunkOf hx hl] at hi
    rw [sessionOf_chunkOf hx]
    exact h.rows node t ht hg _ (by omega) (by omega)

/-- Sessions can be computed if those of all chunks can. -/
theorem feasibleOver_of_chunks {w : World} {size : Nat} (hfl : first ≤ last)
    (h : ∀ x ∈ chunkRanges size first last, e.FeasibleOver p w ledger? x.1 x.2) :
    e.FeasibleOver p w ledger? first last := by
  have hfirst : ∃ stop, (first, stop) ∈ chunkRanges size first last := by
    rw [chunkRanges, if_pos hfl]
    exact ⟨_, List.mem_cons_self⟩
  obtain ⟨stop, hx⟩ := hfirst
  have hhead := h _ hx
  refine ⟨hhead.loadable, hhead.fits, fun node t ht hg r hlow hhigh => ?_, hhead.screen⟩
  by_cases hr : r < first
  · have := (mem_chunkRanges hx).2.1
    exact hhead.rows node t ht hg r hlow (by omega)
  · have hmem : r ∈ List.range' first (last + 1 - first) := List.mem_range'_1.2 (by omega)
    rw [← chunkRanges_flatMap size first last] at hmem
    obtain ⟨y, hy, hry⟩ := List.mem_flatMap.1 hmem
    have hry := List.mem_range'_1.1 hry
    exact (h y hy).rows node t ht hg r (by omega) (by omega)

/-- Part of what can be computed can be computed. -/
theorem FeasibleOver.part {w : World} (h : e.FeasibleOver p w ledger? first last) {first' last' : Nat}
    (hf : first ≤ first') (hl : last' ≤ last) : e.FeasibleOver p w ledger? first' last' :=
  ⟨h.loadable, h.fits, fun node t ht hg r hlow hhigh => h.rows node t ht hg r (by omega) (by omega), h.screen⟩

/-! ## Runs -/

variable {pipeline : Pipeline} {start stop : Date} {size : Nat} {r : Result}

/-- A run that ends well passes its checks and is worked through. -/
theorem runChunked_of_ok {cancelled : Cancellation} {calls : List Call}
    (h : ((e.runChunked pipeline start stop size cancelled).run.run calls).1 = .ok r) :
    size ≠ 0 ∧ ∃ job calls', e.prepare pipeline start stop = .ok job ∧
      ((e.work job start stop size cancelled).run.run calls').1 = .ok r := by
  by_cases hs : size = 0
  · unfold runChunked at h
    rw [if_pos hs] at h
    cases h
  · rw [runChunked_eq e pipeline start stop hs cancelled] at h
    exact ⟨hs, (Run.is_lift _).of_bind h⟩

/-- The checks of a range are passed by its parts. -/
theorem prepare_part {job : Job} (h : e.prepare pipeline start stop = .ok job) {start' stop' : Date}
    (hlow : start ≤ start') (hle : start' ≤ stop') (hhigh : stop' ≤ stop) :
    e.prepare pipeline start' stop' = .ok job := by
  obtain ⟨-, hdomain, hcalendar, hgraph, hserve⟩ := prepare_eq_ok.1 h
  obtain ⟨hfound, a, b, ha, hb, hsa, hbs⟩ := calendarFor_eq_ok.1 hcalendar
  simp only [Date.lt_iff, Date.le_iff] at *
  refine prepare_eq_ok.2 ⟨?_, hdomain, calendarFor_eq_ok.2 ⟨hfound, a, b, ha, hb, ?_, ?_⟩, hgraph, hserve⟩
  · rw [Date.lt_iff]
    omega
  · rw [Date.lt_iff]
    omega
  · rw [Date.lt_iff]
    omega

/-- A part of a range has no sessions if the range has none. -/
theorem sessionRange?_part_eq_none {calendar : Calendar} (hc : calendar.WellFormed)
    (h : sessionRange? calendar start stop = none) {start' stop' : Date} (hlow : start ≤ start')
    (hhigh : stop' ≤ stop) : sessionRange? calendar start' stop' = none := by
  refine Option.eq_none_iff_forall_ne_some.2 fun range hsome => ?_
  have hspec : sessionRange? calendar start' stop' = some (range.1, range.2) := hsome
  obtain ⟨hfl, hl, hlow', hhigh'⟩ := sessionRange?_spec hc hspec
  have hget : calendar.sessions[range.1]? = some _ := Array.getElem?_eq_getElem (by omega)
  refine sessionRange?_eq_none hc h hget ⟨?_, ?_⟩
  · exact Int.le_trans hlow ((hlow' _ _ hget).2 (Nat.le_refl _))
  · exact Int.le_trans ((hhigh' _ _ hget).2 hfl) hhigh

/-- The sessions of a part of a range lie within those of the range. -/
theorem sessionRange?_part_le {calendar : Calendar} (hc : calendar.WellFormed) {start' stop' : Date}
    {first last first' last' : Nat} (h : sessionRange? calendar start stop = some (first, last))
    (h' : sessionRange? calendar start' stop' = some (first', last')) (hlow : start ≤ start')
    (hhigh : stop' ≤ stop) : first ≤ first' ∧ last' ≤ last := by
  obtain ⟨-, -, hlow₁, hhigh₁⟩ := sessionRange?_spec hc h
  obtain ⟨hfl, hl, hlow₂, hhigh₂⟩ := sessionRange?_spec hc h'
  have hget {i : Nat} (hi : i < calendar.sessions.size) :
      calendar.sessions[i]? = some calendar.sessions[i] := Array.getElem?_eq_getElem hi
  have hfirst := hget (i := first') (by omega)
  exact ⟨(hlow₁ _ _ hfirst).1 (Int.le_trans hlow ((hlow₂ _ _ hfirst).2 (Nat.le_refl _))),
    (hhigh₁ _ _ (hget hl)).1 (Int.le_trans ((hhigh₂ _ _ (hget hl)).2 (Nat.le_refl _)) hhigh)⟩

/-- A run that ends well does so in chunks of any size, over any part of its range, and
comes to the rows of that part. -/
theorem runChunked_part (hb : pipeline.Built) (ht : e.Told pipeline alive (fun _ => ledger?) False)
    {cancelled : Cancellation} {calls : List Call}
    (h : ((e.runChunked pipeline start stop size cancelled).run.run calls).1 = .ok r) {start' stop' : Date}
    (hlow : start ≤ start') (hle : start' ≤ stop') (hhigh : stop' ≤ stop) {size' : Nat} (hs : 1 ≤ size') :
    (e.runChunked pipeline start' stop' size' .never).Is
      (.ok (r.restrict fun d => decide (start' ≤ d) && decide (d ≤ stop'))) := by
  obtain ⟨-, job, calls', hjob, hwork⟩ := runChunked_of_ok h
  have hjob' := prepare_part hjob hlow hle hhigh
  obtain ⟨-, hdomain, hcalendar, hgraph, -⟩ := prepare_eq_ok.1 hjob
  have hwell := ht.calendar _ _ hdomain (calendarFor_eq_ok.1 hcalendar).1
  have hprepared : (liftM (e.prepare pipeline start' stop') : Run Job).Is (.ok job) := by
    rw [hjob']
    exact Run.is_lift _
  rw [runChunked_eq e pipeline start' stop' (by omega) .never]
  refine hprepared.bind ?_
  rcases work_of_ok ht hjob hwork with ⟨hnone, rfl⟩ | ⟨first, last, p, hrange, hp, hall, rfl⟩
  · rw [emptyResult_eq hb hgraph fun _ => ⟨fun _ => ⟨0⟩, fun _ => [], fun _ _ _ _ => .label none⟩,
      TermGraph.restrict_table, List.filter_nil, ← emptyResult_eq hb hgraph]
    exact work_of_none (sessionRange?_part_eq_none hwell hnone hlow hhigh) size' .never
  · obtain ⟨-, hfl, hl, -⟩ := Plan.of?_spec hp
    rw [TermGraph.restrict_table]
    show Run.Is _ (.ok (job.graph.table _ ((List.range' first (last + 1 - first)).filter
      (dated job.calendar start' stop'))))
    cases hrange' : sessionRange? job.calendar start' stop' with
    | none =>
      rw [filter_dated_eq_nil hwell hl hrange', ← emptyResult_eq hb hgraph]
      exact work_of_none hrange' size' .never
    | some range =>
      obtain ⟨first', last'⟩ := range
      obtain ⟨hfl', hl', -, -⟩ := sessionRange?_spec hwell hrange'
      obtain ⟨hff, hll⟩ := sessionRange?_part_le hwell hrange hrange' hlow hhigh
      have hp' := Plan.of?_of_le hp hff hfl' hll
      have hextra := (ht.setting hjob hp).extra
      have hwhole := feasibleOver_of_chunks hfl fun x hx =>
        (feasibleAt_iff (fun node => Nat.le_trans (hextra node) (mem_chunkRanges hx).1)
          (Nat.lt_of_le_of_lt (mem_chunkRanges hx).2.2 hl)).1 (hall x hx)
      rw [filter_dated hwell hl hrange' hff hll]
      exact ht.work_is_ok hjob' hrange' hp' fun x hx =>
        (feasibleAt_iff (fun node => Nat.le_trans (hextra node) (Nat.le_trans hff (mem_chunkRanges hx).1))
          (Nat.lt_of_le_of_lt (mem_chunkRanges hx).2.2 hl')).2
        (hwhole.part (Nat.le_trans hff (mem_chunkRanges hx).1) (Nat.le_trans (mem_chunkRanges hx).2.2 hll))

/-- A run is the rows of its own range. -/
theorem restrict_self (hb : pipeline.Built) (ht : e.Told pipeline alive (fun _ => ledger?) False) {calls : List Call}
    (h : ((e.runChunked pipeline start stop size .never).run.run calls).1 = .ok r) :
    start ≤ stop ∧ r.restrict (fun d => decide (start ≤ d) && decide (d ≤ stop)) = r := by
  obtain ⟨hs, job, -, hjob, -⟩ := runChunked_of_ok h
  have hle : start ≤ stop := Int.not_lt.1 (prepare_eq_ok.1 hjob).1
  have hself := runChunked_part hb ht h (Int.le_refl _) hle (Int.le_refl _) (Nat.pos_of_ne_zero hs)
  exact ⟨hle, Except.ok.inj ((hself calls).symm.trans h)⟩

end Engine
end AsOf
