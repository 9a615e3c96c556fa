import AsOf.Proofs.Chunks
import AsOf.Proofs.Schedules

/-!
# Where runs end early

A run is checked before any loader is called, and it asks whether it has been cancelled before
each chunk, never within one. So it ends early at one of these points only: before the first
call, or between two chunks. What is known at such a point is what the chunks before it came to
and the calls that they made; whether the run is found cancelled may depend on both.

* `Engine.atWork_runChunk`: what may go wrong in a chunk, which is nothing that is checked before.
* `Run.only_runChunk`: a chunk is loaded for its own dates and assets.
* `Engine.loop_eq_cancelled`: a loop that stops, stops where it is first found cancelled.
* `Engine.ends_at_clean_points`: whole runs.
-/
namespace AsOf

/-- What a run is checked for before anything is loaded: its size and dates, its market, its
terms and their loaders, and whether there are sessions enough for its plan. -/
def RunError.Early : RunError → Prop
  | config _ | invalidDateRange _ _ | term _ | noCalendar _ | dateOutsideCalendar _ _ => True
  | cyclicDependency _ | unregisteredColumn _ | plan _ => True
  | _ => False

theorem RunError.AtWork.not_early {err : RunError} (h : err.AtWork) : ¬err.Early := by
  cases err <;> first | exact id | exact absurd h id

/-! ## The calls of a chunk -/

/-- The call asks for assets of a chunk on dates of it. -/
structure Call.For (m : Call) (c : Chunk) : Prop where
  domain : m.request.domain = c.domain
  sids : m.request.sids = c.sids
  rows : ∃ extra, m.request.dates = c.datesFrom extra ∧ m.request.mask = c.maskFrom extra

namespace Run

variable {α β γ : Type} {P : Call → Prop} {x : Run α}

/-- The run makes calls of one kind only. -/
def Only (P : Call → Prop) (x : Run α) : Prop := Makes (fun made => ∀ m ∈ made, P m) x

theorem only_lift (r : Except RunError α) : Only P (liftM r : Run α) := makes_lift nofun r

theorem only_pure (a : α) : Only P (pure a : Run α) := only_lift (.ok a)

theorem only_call {l : Loader} {r : Request} (h : P ⟨l.number, r⟩) : Only P (call l r) :=
  fun _ => ⟨[⟨l.number, r⟩], rfl, List.forall_mem_singleton.2 h⟩

theorem Only.bind {f : α → Run β} (hx : Only P x) (hf : ∀ a, Only P (f a)) : Only P (x >>= f) :=
  Makes.bind hx hf (fun _ => id) fun _ _ hmade hmore => List.forall_mem_append.2 ⟨hmade, hmore⟩

theorem Only.mono {Q : Call → Prop} (hx : Only P x) (h : ∀ m, P m → Q m) : Only Q x := fun calls =>
  (hx calls).imp fun _ hmade => ⟨hmade.1, fun m hm => h m (hmade.2 m hm)⟩

theorem only_foldlM {step : α → γ → Run α} {cs : List γ} (h : ∀ c ∈ cs, ∀ a, Only P (step a c)) (a : α) :
    Only P (cs.foldlM step a) := by
  induction cs generalizing a with
  | nil => exact only_pure a
  | cons c cs ih =>
    rw [List.foldlM_cons]
    exact (h c List.mem_cons_self a).bind fun a => ih (fun c hc => h c (List.mem_cons_of_mem _ hc)) a

theorem only_mapM {f : γ → Run α} {cs : List γ} (h : ∀ c ∈ cs, Only P (f c)) : Only P (cs.mapM f) := by
  induction cs with
  | nil => exact only_pure []
  | cons c cs ih =>
    rw [List.mapM_cons]
    exact (h c List.mem_cons_self).bind fun a =>
      (ih fun c hc => h c (List.mem_cons_of_mem _ hc)).bind fun _ => only_pure _

/-- What is asked for again, column by column, is asked for the same assets and dates. -/
theorem only_loadAll {l : Loader} {r : Request} (h : ∀ columns, P ⟨l.number, { r with columns }⟩) :
    Only P (loadAll l r) := by
  have hone (c : Column) : Only P (loadOne l r c) := (only_call (h [c])).bind fun _ => only_lift _
  unfold loadAll
  split
  · exact hone _
  · refine (only_call (h r.columns)).bind fun answer => ?_
    split
    · exact only_pure _
    · exact only_foldlM (fun c _ m => (hone c).bind fun _ => only_pure _) []
    · exact only_lift (.error _)

theorem only_loadGroup (c : Chunk) (ws : Workspace) (g : Group) : Only (·.For c) (loadGroup c ws g) :=
  (only_loadAll fun _ => ⟨rfl, rfl, g.extra, rfl, rfl⟩).bind fun _ => (only_lift _).bind fun _ => only_pure _

/-- A chunk is loaded for its own dates and assets. -/
theorem only_runChunk (e : Engine) (p : Plan) (c : Chunk) : Only (·.For c) (e.runChunk p c) :=
  (only_lift (Engine.seed p c)).bind fun ws =>
    ((only_lift (groups e.loaders p)).bind fun _ => only_foldlM (fun g _ ws => only_loadGroup c ws g) ws).bind
      fun _ => (only_lift _).bind fun _ => only_lift _

end Run

namespace Engine

variable {e : Engine} {p : Plan}

/-- A chunk fails on what loaders answer and on values that do not suit, if it fails. -/
theorem atWork_runChunk (hl : p.Layered) (hserved : ∀ x ∈ p.graph.columns, (e.loaders.serving? x.2).isSome = true)
    (c : Chunk) : Run.Ends (fun _ => True) RunError.AtWork (e.runChunk p c) := by
  have hgroups : Checked.Ends (fun _ => True) RunError.AtWork (Run.groups e.loaders p) := by
    obtain ⟨gs, hok, -⟩ := Run.groups_spec hserved
    rw [hok]
    trivial
  rw [runChunk_eq_runIn]
  have hloaded : Run.Ends (fun ws => ws.size = p.size) RunError.AtWork (e.loaded p c) :=
    (Run.ends_lift (ends_seed p c)).bind fun _ hs => Run.ends_loadColumns (fun _ => id) hgroups hs
  exact hloaded.bind fun ws hs =>
    Run.ends_lift (Plan.atWork_complete (Plan.orderly_steps hl (List.forall₂_same.2 fun _ _ => .refl _)) hl hs)

/-! ## The loop over the chunks -/

/-- Before chunk `k`, when all chunks before it have come to an end, these calls have been made. -/
structure Reached (e : Engine) (p : Plan) (chunks : List Chunk) (calls : List Call) (k : Nat) (calls' : List Call) :
    Prop where
  more : k < chunks.length
  done : ∃ parts, ((chunks.take k).mapM (e.runChunk p)).run.run calls = (.ok parts, calls')

/-- The run is first found cancelled before chunk `k`. -/
structure Stops (e : Engine) (p : Plan) (cancelled : Cancellation) (chunks : List Chunk) (calls : List Call) (k : Nat)
    (calls' : List Call) : Prop where
  reached : e.Reached p chunks calls k calls'
  set : cancelled k calls' = true
  unset : ∀ j < k, ∀ before, e.Reached p chunks calls j before → cancelled j before = false

variable {cancelled : Cancellation} {c : Chunk} {chunks : List Chunk} {parts : List Result} {calls calls' : List Call}
  {k : Nat}

theorem reached_zero : e.Reached p (c :: chunks) calls 0 calls' ↔ calls' = calls := by
  constructor
  · rintro ⟨-, parts, h⟩
    exact (congrArg Prod.snd h).symm
  · rintro rfl
    exact ⟨Nat.zero_lt_succ _, [], rfl⟩

theorem reached_succ : e.Reached p (c :: chunks) calls (k + 1) calls' ↔
    ∃ part mid, (e.runChunk p c).run.run calls = (.ok part, mid) ∧ e.Reached p chunks mid k calls' := by
  constructor
  · rintro ⟨hlt, parts, h⟩
    rw [List.take_succ_cons, List.mapM_cons] at h
    obtain ⟨part, mid, hc, h⟩ := Run.run_bind_eq_ok.1 h
    obtain ⟨rest, final, hrest, h⟩ := Run.run_bind_eq_ok.1 h
    obtain rfl : final = calls' := congrArg Prod.snd h
    exact ⟨part, mid, hc, Nat.lt_of_succ_lt_succ hlt, rest, hrest⟩
  · rintro ⟨part, mid, hc, hlt, rest, hrest⟩
    refine ⟨Nat.succ_lt_succ hlt, part :: rest, ?_⟩
    rw [List.take_succ_cons, List.mapM_cons]
    exact Run.run_bind_eq_ok.2 ⟨part, mid, hc, Run.run_bind_eq_ok.2 ⟨rest, calls', hrest, rfl⟩⟩

/-- A run stops before its first chunk, or in the rest of a run that has come to the end of it. -/
theorem stops_cons : e.Stops p cancelled (c :: chunks) calls k calls' ↔
    (cancelled 0 calls = true ∧ k = 0 ∧ calls' = calls) ∨
    (cancelled 0 calls = false ∧ ∃ part mid j, (e.runChunk p c).run.run calls = (.ok part, mid) ∧ k = j + 1 ∧
      e.Stops p (fun i => cancelled (i + 1)) chunks mid j calls') := by
  constructor
  · rintro ⟨hreached, hset, hunset⟩
    cases k with
    | zero =>
      obtain rfl := reached_zero.1 hreached
      exact .inl ⟨hset, rfl, rfl⟩
    | succ k =>
      obtain ⟨part, mid, hc, hreached⟩ := reached_succ.1 hreached
      refine .inr ⟨hunset 0 (Nat.zero_lt_succ k) calls (reached_zero.2 rfl), part, mid, k, hc, rfl, hreached, hset,
        fun j hj before hb => hunset (j + 1) (Nat.succ_lt_succ hj) before (reached_succ.2 ⟨part, mid, hc, hb⟩)⟩
  · rintro (⟨hset, rfl, rfl⟩ | ⟨hfirst, part, mid, k, hc, rfl, hreached, hset, hunset⟩)
    · exact ⟨reached_zero.2 rfl, hset, nofun⟩
    · refine ⟨reached_succ.2 ⟨part, mid, hc, hreached⟩, hset, fun j hj before hb => ?_⟩
      cases j with
      | zero => exact reached_zero.1 hb ▸ hfirst
      | succ j =>
        obtain ⟨part', mid', hc', hb⟩ := reached_succ.1 hb
        obtain rfl : mid = mid' := congrArg Prod.snd (hc.symm.trans hc')
        exact hunset j (Nat.lt_of_succ_lt_succ hj) before hb

/-- One chunk more is done. -/
theorem length_concat (parts : List Result) (part : Result) (i : Nat) :
    (parts ++ [part]).length + i = parts.length + (i + 1) := by
  rw [List.length_append, List.length_singleton, Nat.add_assoc, Nat.add_comm 1 i]

/-- The loop stops where it is first found cancelled. -/
theorem loop_eq_cancelled (hwork : ∀ c ∈ chunks, Run.Ends (fun _ => True) RunError.AtWork (e.runChunk p c)) {n : Nat} :
    (chunks.foldlM (e.nextChunk p cancelled) parts).run.run calls = (.error (.cancelled n), calls') ↔
      ∃ k, n = parts.length + k ∧ e.Stops p (fun i => cancelled (parts.length + i)) chunks calls k calls' := by
  induction chunks generalizing parts calls with
  | nil => exact ⟨nofun, fun ⟨_, _, hstop⟩ => absurd hstop.reached.more (Nat.not_lt_zero _)⟩
  | cons c chunks ih =>
    have hend := hwork c List.mem_cons_self calls
    simp only [stops_cons]
    rw [List.foldlM_cons, Run.run_bind, run_nextChunk]
    by_cases hnow : cancelled parts.length calls = true
    · rw [if_pos hnow]
      constructor
      · intro h
        cases h
        exact ⟨0, rfl, .inl ⟨hnow, rfl, rfl⟩⟩
      · rintro ⟨k, rfl, ⟨-, rfl, rfl⟩ | ⟨hno, -⟩⟩
        · rfl
        · exact absurd hnow (hno ▸ Bool.false_ne_true)
    · rw [if_neg hnow, Run.run_bind]
      cases hc : (e.runChunk p c).run.run calls with
      | mk result mid =>
        rw [hc] at hend
        cases result with
        | error err =>
          constructor
          · intro h
            cases h
            exact absurd hend id
          · rintro ⟨k, rfl, ⟨hyes, -⟩ | ⟨-, _, _, _, hok, -⟩⟩
            · exact absurd hyes hnow
            · cases hok
        | ok part =>
          show (chunks.foldlM (e.nextChunk p cancelled) (parts ++ [part])).run.run mid = _ ↔ _
          rw [ih fun c hc => hwork c (List.mem_cons_of_mem _ hc)]
          simp only [length_concat]
          constructor
          · rintro ⟨k, rfl, hstop⟩
            exact ⟨k + 1, rfl, .inr ⟨Bool.eq_false_of_not_eq_true hnow, part, mid, k, rfl, rfl, hstop⟩⟩
          · rintro ⟨k, rfl, ⟨hyes, -⟩ | ⟨-, _, _, j, hok, rfl, hstop⟩⟩
            · exact absurd hyes hnow
            · cases hok
              exact ⟨j, rfl, hstop⟩

/-- A loop that is never found cancelled comes to what it comes to when nobody cancels. -/
theorem loop_unseen (h : ∀ k before, e.Reached p chunks calls k before → cancelled (parts.length + k) before = false) :
    (chunks.foldlM (e.nextChunk p cancelled) parts).run.run calls =
      (chunks.foldlM (e.nextChunk p .never) parts).run.run calls := by
  induction chunks generalizing parts calls with
  | nil => rfl
  | cons c chunks ih =>
    have hnow : ¬cancelled parts.length calls = true := Bool.eq_false_iff.1 (h 0 calls (reached_zero.2 rfl))
    have hnever : ¬Cancellation.never parts.length calls = true := Bool.false_ne_true
    rw [List.foldlM_cons, List.foldlM_cons, Run.run_bind, Run.run_bind, run_nextChunk, run_nextChunk, if_neg hnow,
      if_neg hnever, Run.run_bind]
    cases hc : (e.runChunk p c).run.run calls with
    | mk result mid =>
      cases result with
      | error err => rfl
      | ok part =>
        exact ih fun k before hb => by
          rw [length_concat]
          exact h (k + 1) before (reached_succ.2 ⟨part, mid, hc, hb⟩)

/-- A loop ends before a chunk, or it fails in one. -/
theorem ends_loop (hwork : ∀ c ∈ chunks, Run.Ends (fun _ => True) RunError.AtWork (e.runChunk p c)) :
    Run.Ends (fun _ => True) (fun err => err.AtWork ∨ ∃ k, err = .cancelled k)
      (chunks.foldlM (e.nextChunk p cancelled) parts) := by
  refine Run.ends_foldlM (fun c hc parts _ calls => ?_) trivial
  rw [run_nextChunk]
  split
  · exact .inr ⟨_, rfl⟩
  · exact (((hwork c hc).bind fun part _ => Run.ends_pure trivial).weaken fun _ => .inl) calls

/-! ## Whole runs -/

variable {pipeline : Pipeline} {start stop : Date} {size : Nat}

/-- All checks pass, and there are sessions, in these chunks. -/
def Started (e : Engine) (pipeline : Pipeline) (start stop : Date) (size : Nat) (p : Plan)
    (chunks : List Chunk) : Prop :=
  size ≠ 0 ∧ ∃ job first last, e.prepare pipeline start stop = .ok job ∧
    sessionRange? job.calendar start stop = some (first, last) ∧
    Plan.of? job.graph job.calendar.sessions.size first last = .ok p ∧
    chunks = (chunkRanges size first last).map fun x =>
      e.chunkOf p job.domain job.calendar.sessions (e.assetsFor p) x.1 x.2

/-- Works through some chunks. -/
def through (e : Engine) (p : Plan) (cancelled : Cancellation) (chunks : List Chunk) : Run Result := do
  let parts ← chunks.foldlM (e.nextChunk p cancelled) []
  (Result.concat parts).mapError RunError.output

theorem Started.runChunked_eq (h : e.Started pipeline start stop size p chunks) (cancelled : Cancellation) :
    e.runChunked pipeline start stop size cancelled = e.through p cancelled chunks := by
  obtain ⟨hsize, job, first, last, hprepare, hrange, hplan, rfl⟩ := h
  rw [runChunked_of_prepared hsize hprepare, work, hrange]
  simp only [hplan, through, List.foldlM_map]
  rfl

/-- A chunk of a run that has been checked fails at work only. -/
theorem Started.atWork (h : e.Started pipeline start stop size p chunks) :
    ∀ c ∈ chunks, Run.Ends (fun _ => True) RunError.AtWork (e.runChunk p c) := by
  obtain ⟨-, job, first, last, hprepare, -, hplan, -⟩ := h
  obtain ⟨-, -, -, hgraph, hserved⟩ := prepare_eq_ok.1 hprepare
  have hg := Pipeline.graph_eq_ok hgraph
  obtain ⟨hsame, -⟩ := Plan.sound_of hg hplan
  exact fun c _ => atWork_runChunk (Plan.layered_of hg hplan) (hsame ▸ hserved) c

theorem ends_calendarFor (domain : Domain) (start stop : Date) :
    Checked.Ends (fun _ => True) RunError.Early (calendarFor domain start stop) := by
  unfold calendarFor
  cases domain.calendar? with
  | none => trivial
  | some calendar =>
    cases hfirst : calendar.first? with
    | none =>
      simp only [hfirst]
      trivial
    | some first =>
      cases hlast : calendar.last? with
      | none =>
        simp only [hfirst, hlast]
        trivial
      | some last =>
        simp only [hfirst, hlast]
        split
        · trivial
        · split <;> trivial

theorem ends_prepare (e : Engine) (pipeline : Pipeline) (start stop : Date) :
    Checked.Ends (fun _ => True) RunError.Early (e.prepare pipeline start stop) := by
  have hdomain : Checked.Ends (fun _ => True) RunError.Early (pipeline.domainOr e.domain) :=
    ((Checked.ends_true _).mapError fun _ _ => trivial).bind fun _ _ => trivial
  have hgraph : Checked.Ends (fun _ => True) RunError.Early pipeline.graph :=
    (Checked.ends_true _).mapError fun _ _ => trivial
  have hserved (g : TermGraph) : Checked.Ends (fun _ => True) RunError.Early
      (g.columns.forM fun x => discard (Run.loaderOf e.loaders x.2)) := Checked.ends_forM fun x _ => by
    unfold Run.loaderOf
    cases e.loaders.serving? x.2 <;> trivial
  unfold prepare
  split
  · trivial
  · exact hdomain.bind fun domain _ => (ends_calendarFor domain start stop).bind fun _ _ =>
      hgraph.bind fun g _ => (hserved g).bind fun _ _ => trivial

/-- A run works through chunks, or it has come to an end before the first call. -/
theorem started_or (e : Engine) (pipeline : Pipeline) (start stop : Date) (size : Nat) :
    (∃ p chunks, e.Started pipeline start stop size p chunks) ∨
      ∃ result, Checked.Ends (fun _ => True) RunError.Early result ∧ ∀ (cancelled : Cancellation) (calls : List Call),
        (e.runChunked pipeline start stop size cancelled).run.run calls = (result, calls) := by
  by_cases hsize : size = 0
  · subst hsize
    exact .inr ⟨.error (.config .zeroChunk), trivial, fun _ _ => by rw [runChunked_zero]; rfl⟩
  have hend := e.ends_prepare pipeline start stop
  cases hprepare : e.prepare pipeline start stop with
  | error err =>
    rw [hprepare] at hend
    exact .inr ⟨.error err, hend, fun _ _ => by rw [runChunked_of_error hsize hprepare]; rfl⟩
  | ok job =>
    cases hrange : sessionRange? job.calendar start stop with
    | none =>
      refine .inr ⟨.ok (emptyResult job.graph), trivial, fun cancelled calls => ?_⟩
      rw [runChunked_of_prepared hsize hprepare, work, hrange]
      rfl
    | some range =>
      obtain ⟨first, last⟩ := range
      cases hplan : Plan.of? job.graph job.calendar.sessions.size first last with
      | error err =>
        refine .inr ⟨.error (.plan err), trivial, fun cancelled calls => ?_⟩
        rw [runChunked_of_prepared hsize hprepare, work, hrange]
        simp only [hplan]
        rfl
      | ok p => exact .inl ⟨p, _, hsize, job, first, last, hprepare, hrange, hplan, rfl⟩

/-- What chunks may end with: they are put together, or a chunk fails, or is not begun. -/
theorem ends_through (hwork : ∀ c ∈ chunks, Run.Ends (fun _ => True) RunError.AtWork (e.runChunk p c)) :
    Run.Ends (fun _ => True) (fun err => err.AtWork ∨ ∃ k, err = .cancelled k) (e.through p cancelled chunks) :=
  (ends_loop hwork).bind fun _ _ => Run.ends_lift ((Checked.ends_true _).mapError fun _ _ => .inl trivial)

theorem through_eq_cancelled (hwork : ∀ c ∈ chunks, Run.Ends (fun _ => True) RunError.AtWork (e.runChunk p c)) :
    (e.through p cancelled chunks).run.run calls = (.error (.cancelled k), calls') ↔
      e.Stops p cancelled chunks calls k calls' := by
  have hloop : (chunks.foldlM (e.nextChunk p cancelled) []).run.run calls = (.error (.cancelled k), calls') ↔
      ∃ j, k = ([] : List Result).length + j ∧
        e.Stops p (fun i => cancelled (([] : List Result).length + i)) chunks calls j calls' := loop_eq_cancelled hwork
  simp only [List.length_nil, Nat.zero_add, exists_eq_left'] at hloop
  rw [← hloop, through, Run.run_bind]
  cases (chunks.foldlM (e.nextChunk p cancelled) []).run.run calls with
  | mk result mid =>
    cases result with
    | error err =>
      constructor <;>
      · intro h
        cases h
        rfl
    | ok parts =>
      refine iff_of_false (fun h => ?_) nofun
      have hlift := (Run.run_lift ((Result.concat parts).mapError RunError.output) mid).symm.trans h
      cases hconcat : Result.concat parts with
      | ok r =>
        rw [hconcat] at hlift
        cases hlift
      | error err =>
        rw [hconcat] at hlift
        cases hlift

theorem through_unseen (h : ∀ k before, e.Reached p chunks calls k before → cancelled k before = false) :
    (e.through p cancelled chunks).run.run calls = (e.through p .never chunks).run.run calls := by
  have hloop : (chunks.foldlM (e.nextChunk p cancelled) []).run.run calls =
      (chunks.foldlM (e.nextChunk p .never) []).run.run calls := loop_unseen fun k before hb => by
    rw [List.length_nil, Nat.zero_add]
    exact h k before hb
  rw [through, through, Run.run_bind, Run.run_bind, hloop]

/-- A run that ends with one of the errors it is checked for has called no loader. It ends as
cancelled after `k` chunks exactly if the first question that is answered yes is the one before
chunk `k`, when the chunks before it have come to an end; the calls are then those that these
chunks made, each for one of them. If no question that is reached is answered yes, the run
comes to what it comes to when nobody cancels, after the same calls. -/
theorem ends_at_clean_points (e : Engine) (pipeline : Pipeline) (start stop : Date) (size : Nat)
    (cancelled : Cancellation) (calls : List Call) :
    (∀ err final, (e.runChunked pipeline start stop size cancelled).run.run calls = (.error err, final) →
      err.Early → final = calls) ∧
    (∀ k final, (e.runChunked pipeline start stop size cancelled).run.run calls = (.error (.cancelled k), final) ↔
      ∃ p chunks, e.Started pipeline start stop size p chunks ∧ e.Stops p cancelled chunks calls k final) ∧
    (∀ p chunks k final, e.Started pipeline start stop size p chunks → e.Stops p cancelled chunks calls k final →
      ∃ made, final = calls ++ made ∧ ∀ m ∈ made, ∃ c ∈ chunks.take k, m.For c) ∧
    ((∀ p chunks, e.Started pipeline start stop size p chunks → ∀ k before, e.Reached p chunks calls k before →
        cancelled k before = false) →
      (e.runChunked pipeline start stop size cancelled).run.run calls =
        (e.runChunked pipeline start stop size .never).run.run calls) := by
  have hcalls (p : Plan) (chunks : List Chunk) (k : Nat) (final : List Call)
      (hstop : e.Stops p cancelled chunks calls k final) :
      ∃ made, final = calls ++ made ∧ ∀ m ∈ made, ∃ c ∈ chunks.take k, m.For c := by
    obtain ⟨parts, hdone⟩ := hstop.reached.done
    have honly : Run.Only (fun m => ∃ c ∈ chunks.take k, m.For c) ((chunks.take k).mapM (e.runChunk p)) :=
      Run.only_mapM fun c hc => (Run.only_runChunk e p c).mono fun m hm => ⟨c, hc, hm⟩
    obtain ⟨made, heq, hmade⟩ := honly calls
    exact ⟨made, (congrArg Prod.snd hdone).symm.trans heq, hmade⟩
  rcases e.started_or pipeline start stop size with ⟨p, chunks, hs⟩ | ⟨result, hresult, hrun⟩
  · refine ⟨fun err final h hearly => ?_, fun k final => ?_, fun p chunks k final _ => hcalls p chunks k final,
      fun h => ?_⟩
    · have hends : Run.Ends _ _ (e.through p cancelled chunks) := ends_through hs.atWork
      have hend := hends calls
      rw [← hs.runChunked_eq, h] at hend
      rcases hend with hwork | ⟨k, rfl⟩
      · exact absurd hearly hwork.not_early
      · exact absurd hearly id
    · constructor
      · intro h
        rw [hs.runChunked_eq, through_eq_cancelled hs.atWork] at h
        exact ⟨p, chunks, hs, h⟩
      · rintro ⟨p, chunks, hs, hstop⟩
        rw [hs.runChunked_eq, through_eq_cancelled hs.atWork]
        exact hstop
    · rw [hs.runChunked_eq, hs.runChunked_eq]
      exact through_unseen (h p chunks hs)
  · refine ⟨fun err final h _ => ?_, fun k final => ?_, fun p chunks k final _ => hcalls p chunks k final, fun _ => ?_⟩
    · exact (congrArg Prod.snd ((hrun cancelled calls).symm.trans h)).symm
    · constructor
      · intro h
        obtain ⟨rfl, -⟩ := Prod.mk.inj ((hrun cancelled calls).symm.trans h)
        exact absurd hresult id
      · rintro ⟨p, chunks, hs, hstop⟩
        rw [hs.runChunked_eq, through_eq_cancelled hs.atWork]
        exact hstop
    · rw [hrun, hrun]

/-! The numbers of three days, day by day, where the run is cancelled from within the first call. -/

/-- Cancelled as soon as a loader has been called. -/
def onceCalled : Cancellation := fun _ calls => !calls.isEmpty

/-- The run stops after the first day, for which the loader has been called once. -/
theorem ends_at_clean_points_onceCalled : ∃ final,
    ((rateEngine []).runChunked ratePipeline ⟨0⟩ ⟨2⟩ 1 onceCalled).run.run [] = (.error (.cancelled 1), final) ∧
    final.length = 1 ∧ ∃ p chunks, (rateEngine []).Started ratePipeline ⟨0⟩ ⟨2⟩ 1 p chunks ∧
      ∀ m ∈ final, ∃ c ∈ chunks.take 1, m.For c := by
  obtain ⟨final, hfinal⟩ : ∃ final,
      final = (((rateEngine []).runChunked ratePipeline ⟨0⟩ ⟨2⟩ 1 onceCalled).run.run []).2 := ⟨_, rfl⟩
  have herr : (((rateEngine []).runChunked ratePipeline ⟨0⟩ ⟨2⟩ 1 onceCalled).run.run []).1 =
      .error (.cancelled 1) := by
    cbv
  have hlength : (((rateEngine []).runChunked ratePipeline ⟨0⟩ ⟨2⟩ 1 onceCalled).run.run []).2.length = 1 := by cbv
  have hrun : ((rateEngine []).runChunked ratePipeline ⟨0⟩ ⟨2⟩ 1 onceCalled).run.run [] =
      (.error (.cancelled 1), final) := Prod.ext herr hfinal.symm
  obtain ⟨-, hcancelled, hcalls, -⟩ := ends_at_clean_points (rateEngine []) ratePipeline ⟨0⟩ ⟨2⟩ 1 onceCalled []
  obtain ⟨p, chunks, hstarted, hstops⟩ := (hcancelled 1 final).1 hrun
  obtain ⟨made, hmade, hfor⟩ := hcalls p chunks 1 final hstarted hstops
  refine ⟨final, hrun, hfinal ▸ hlength, p, chunks, hstarted, ?_⟩
  rw [hmade]
  exact hfor

end Engine
end AsOf
