import AsOf.Proofs.Loader.Ledger
import AsOf.Proofs.Run.Outcome
import AsOf.Proofs.Run.Schedule
import AsOf.Run.Basic

/-!
# Loading groups of columns

Where a loader keeps ledgers, loading a group of columns finds what the ledgers say, or
fails. It fails for one of these reasons: a column is asked for twice, a ledger has
another type or another missing value than its column, or the loader refuses.

* `Run.loadAll_spec`: one request, with columns that have no data left blank.
* `Run.loadGroup_spec`: a request, and its answer taken apart.
* `Run.groups_spec`: every column is in a group with its loader and its depth.
-/
namespace AsOf

/-- The ledger of a column, blank if there is no data. -/
def ledgerOf (ledger? : Column → Option Ledger) (c : Column) : Ledger := (ledger? c).getD (.blank c)

namespace Run

variable {ledger? : Column → Option Ledger} {mayRefuse : Prop} {l : Loader} {r : Request}

/-! ## One request -/

/-- Asking for one column, which may have no data. -/
theorem loadOne_spec {c : Column} (h : l.Answers ledger? mayRefuse { r with columns := [c] }) :
    (∃ m hist, (loadOne l r c).Is (.ok m) ∧ hist.Records r.dates r.sids (ledgerOf ledger? c) ∧
      m.get? c = some hist ∧ ∀ (a : Loaded) (column : Column), (a.extend m).get? column =
        if (column == c) = true then some hist else a.get? column) ∨
    (mayRefuse ∧ ∃ e, (loadOne l r c).Is (.error e)) := by
  have hcall := is_call l { r with columns := [c] }
  rcases h with h | ⟨hmay, e, he, hno⟩
  · refine .inl ?_
    cases hk : ledger? c with
    | some k =>
      obtain ⟨m, hm, hp, hc, hr⟩ := h.ok fun c' hc' => by
        rw [List.mem_singleton.1 hc', hk]
        rfl
      obtain ⟨hist, hget, hrec⟩ := hr c List.mem_cons_self k hk
      have honly : ∀ x ∈ m, (x.1 == c) = true := by
        intro x hx
        obtain ⟨c', hc', hx⟩ := hc x hx
        rwa [List.mem_singleton.1 hc'] at hx
      rw [hm] at hcall
      exact ⟨m, hist, hcall.bind (is_lift (.ok m)), by rw [ledgerOf, hk]; exact hrec, hget,
        fun a => Loaded.get?_extend_single a hp honly hget⟩
    | none =>
      obtain ⟨name, hn⟩ := h.noData ⟨c, List.mem_cons_self, hk⟩
      rw [hn] at hcall
      have hget : Loaded.get? [(c, .allMissing c.missing r.shape)] c =
          some (.allMissing c.missing r.shape) := by
        rw [Loaded.get?_cons, if_pos (beq_self_eq_true c)]
      refine ⟨[(c, .allMissing c.missing r.shape)], _, hcall.bind (is_lift (.ok _)),
        by rw [ledgerOf, hk]; exact .allMissing c r.dates r.sids, hget, fun a =>
          Loaded.get?_extend_single a (List.pairwise_singleton _ _) (fun x hx => ?_) hget⟩
      rw [List.mem_singleton.1 hx]
      exact beq_self_eq_true c
  · rw [he] at hcall
    have hmissing : orMissing { r with columns := [c] } c (.error e) = .error (.load e) := by
      cases e with
      | noData name => exact absurd rfl (hno name)
      | _ => rfl
    refine .inr ⟨hmay, .load e, hcall.bind ?_⟩
    rw [hmissing]
    exact is_lift (.error _)

/-- The requests for single columns find what their ledgers say. -/
theorem foldlM_loadOne (columns : List Column)
    (h : ∀ c ∈ columns, l.Answers ledger? mayRefuse { r with columns := [c] }) (m : Loaded) :
    (∃ m', (columns.foldlM (fun m c => do return m.extend (← loadOne l r c)) m : Run Loaded).Is (.ok m') ∧
      ∀ column, (∃ c ∈ columns, (column == c) = true ∧ ∃ h : History, m'.get? column = some h ∧
          h.Records r.dates r.sids (ledgerOf ledger? c)) ∨
        (∀ c ∈ columns, (column == c) = false) ∧ m'.get? column = m.get? column) ∨
    (mayRefuse ∧ ∃ e,
      (columns.foldlM (fun m c => do return m.extend (← loadOne l r c)) m : Run Loaded).Is (.error e)) := by
  induction columns generalizing m with
  | nil => exact .inl ⟨m, is_pure m, fun column => .inr ⟨fun _ hc => absurd hc List.not_mem_nil, rfl⟩⟩
  | cons c columns ih =>
    rw [List.foldlM_cons]
    rcases loadOne_spec (h c List.mem_cons_self) with ⟨one, hist, hone, hrec, -, hget⟩ | ⟨hmay, e, he⟩
    · have hput : (loadOne l r c >>= fun one => pure (m.extend one)).Is (.ok (m.extend one)) :=
        hone.bind (f := fun one => pure (m.extend one)) (is_pure _)
      rcases ih (fun c hc => h c (List.mem_cons_of_mem _ hc)) (m.extend one) with
        ⟨m', hm', hspec⟩ | ⟨hmay, e, he⟩
      · refine .inl ⟨m', hput.bind hm', fun column => ?_⟩
        rcases hspec column with ⟨c', hc', hcol, hist', hget'⟩ | ⟨hno, hsame⟩
        · exact .inl ⟨c', List.mem_cons_of_mem _ hc', hcol, hist', hget'⟩
        · rw [hget] at hsame
          by_cases hcol : (column == c) = true
          · rw [if_pos hcol] at hsame
            exact .inl ⟨c, List.mem_cons_self, hcol, hist, hsame, hrec⟩
          · rw [if_neg hcol] at hsame
            refine .inr ⟨fun c' hc' => ?_, hsame⟩
            rcases List.mem_cons.1 hc' with rfl | hc'
            · exact Bool.eq_false_iff.2 hcol
            · exact hno c' hc'
      · exact .inr ⟨hmay, e, hput.bind he⟩
    · exact .inr ⟨hmay, e, he.bind_error.bind_error⟩

/-- What is made of the answer to a request for several columns. -/
def onAnswer (l : Loader) (r : Request) : Except LoadError Loaded → Run Loaded
  | .ok m => pure m
  | .error (.noData _) => r.columns.foldlM (fun m c => do return m.extend (← loadOne l r c)) []
  | .error e => throw (.load e)

theorem loadAll_eq (h : ¬∃ c, r.columns = [c]) : loadAll l r = call l r >>= onAnswer l r := by
  unfold loadAll
  split
  · exact absurd ⟨_, ‹_›⟩ h
  · refine congrArg (call l r >>= ·) (funext fun answer => ?_)
    cases answer with
    | ok m => rfl
    | error e => cases e <;> rfl

/-- A regular request is filled with what the ledgers say. -/
theorem loadAll_spec (hr : r.Regular)
    (h : ∀ columns, columns ≠ [] → columns.Sublist r.columns →
      l.Answers ledger? mayRefuse { r with columns }) :
    (∃ m, (loadAll l r).Is (.ok m) ∧ ∀ c ∈ r.columns, ∃ h : History, m.get? c = some h ∧
      h.Records r.dates r.sids (ledgerOf ledger? c)) ∨
    (mayRefuse ∧ ∃ e, (loadAll l r).Is (.error e)) := by
  by_cases hone : ∃ c, r.columns = [c]
  · obtain ⟨c, hcol⟩ := hone
    have hall : loadAll l r = loadOne l r c := by
      unfold loadAll
      rw [hcol]
    rw [hall]
    rcases loadOne_spec (h [c] (List.cons_ne_nil _ _) (hcol ▸ List.Sublist.refl _)) with
      ⟨m, hist, hm, hrec, hget, -⟩ | hrefused
    · refine .inl ⟨m, hm, fun c' hc' => ?_⟩
      rw [hcol] at hc'
      obtain rfl := List.mem_singleton.1 hc'
      exact ⟨hist, hget, hrec⟩
    · exact .inr hrefused
  · have hcall := is_call l r
    rw [loadAll_eq hone]
    rcases h r.columns hr.nonempty (List.Sublist.refl _) with hans | ⟨hmay, e, he, hno⟩
    · by_cases hdata : ∀ c ∈ r.columns, (ledger? c).isSome = true
      · obtain ⟨m, hm, -, -, hget⟩ := hans.ok hdata
        rw [show l.load r = .ok m from hm] at hcall
        refine .inl ⟨m, hcall.bind (is_pure m), fun c hc => ?_⟩
        obtain ⟨k, hk⟩ := Option.isSome_iff_exists.1 (hdata c hc)
        rw [ledgerOf, hk]
        exact hget c hc k hk
      · simp only [not_forall] at hdata
        obtain ⟨c, hc, hno⟩ := hdata
        obtain ⟨name, hn⟩ := hans.noData ⟨c, hc, by simpa using hno⟩
        rw [show l.load r = .error (.noData name) from hn] at hcall
        rcases foldlM_loadOne r.columns (fun c hc => h [c] (List.cons_ne_nil _ _) (List.singleton_sublist.2 hc)) [] with
          ⟨m, hm, hspec⟩ | ⟨hmay, e, he⟩
        · refine .inl ⟨m, hcall.bind hm, fun c hc => ?_⟩
          rcases hspec c with ⟨c', hc', hcc, hist, hget, hrec⟩ | ⟨hno, -⟩
          · obtain rfl := Column.eq_of_beq hr.columns hc hc' hcc
            exact ⟨hist, hget, hrec⟩
          · have := hno c hc
            rw [beq_self_eq_true c] at this
            cases this
        · exact .inr ⟨hmay, e, hcall.bind he⟩
    · rw [show l.load r = .error e from he] at hcall
      refine .inr ⟨hmay, .load e, hcall.bind ?_⟩
      cases e with
      | noData name => exact absurd rfl (hno name)
      | _ => exact is_throw _

theorem exists_loadOne (l : Loader) (r : Request) (c : Column) : ∃ result, (loadOne l r c).Is result :=
  exists_bind ⟨_, is_call l _⟩ fun _ => ⟨_, is_lift _⟩

/-- Whatever a loader answers, a request comes to a result. -/
theorem exists_loadAll (l : Loader) (r : Request) : ∃ result, (loadAll l r).Is result := by
  unfold loadAll
  split
  · exact exists_loadOne ..
  · refine exists_bind ⟨_, is_call l r⟩ fun answer => ?_
    split
    · exact ⟨_, is_pure _⟩
    · exact exists_foldlM (fun m c => exists_bind (exists_loadOne l r c) fun _ => ⟨_, is_pure _⟩) _ _
    · exact ⟨_, is_throw _⟩

/-! ## Taking the answer apart -/

variable {dates : List Date} {sids : List Sid} {members : List (Nat × Column)} {ws : Workspace} {m : Loaded}

/-- No column is asked for twice. -/
def Distinct (members : List (Nat × Column)) : Prop :=
  (members.map (·.2)).Pairwise fun a b => (a == b) = false

/-- The ledgers suit their columns. -/
def Suited (ledger? : Column → Option Ledger) (members : List (Nat × Column)) : Prop :=
  ∀ x ∈ members, (ledgerOf ledger? x.2).Suits x.2

theorem check_eq_ok {c : Column} {h : History} {shape : Nat × Nat} :
    check c h shape = .ok () ↔ h.shape = shape ∧ h.dtype = c.dtype ∧ (h.missing == c.missing) = true := by
  unfold check
  by_cases hs : h.shape = shape
  · by_cases hd : h.dtype = c.dtype
    · cases hm : (h.missing == c.missing) with
      | true => simp [hs, hd, bne, hm]; rfl
      | false => simp [hs, hd, bne, hm]
    · refine ⟨fun e => ?_, fun e => absurd e.2.1 hd⟩
      rw [if_neg (not_not_intro hs), if_pos hd] at e
      cases e
  · refine ⟨fun e => ?_, fun e => absurd e.1 hs⟩
    rw [if_pos hs] at e
    cases e

theorem take_of_none {shape : Nat × Nat} {x : Nat × Column} (h : m.get? x.2 = none) :
    ∃ e, take shape (ws, m) x = .error e := by
  simp only [take, h]
  exact ⟨_, rfl⟩

theorem take_of_some {shape : Nat × Nat} {x : Nat × Column} {h : History} (hg : m.get? x.2 = some h) :
    take shape (ws, m) x = check x.2 h shape >>= fun _ => .ok (ws.put x.1 h, m.erase x.2) := by
  simp only [take, hg]
  rfl

/-- A column is taken if the answer has a history for it that passes the check. -/
theorem take_eq_ok {shape : Nat × Nat} {x : Nat × Column} {state : Workspace × Loaded} :
    take shape (ws, m) x = .ok state ↔ ∃ h : History, m.get? x.2 = some h ∧ check x.2 h shape = .ok () ∧
      state = (ws.put x.1 h, m.erase x.2) := by
  cases hg : m.get? x.2 with
  | none =>
    obtain ⟨e, he⟩ := @take_of_none ws _ shape _ hg
    rw [he]
    exact ⟨nofun, fun ⟨_, hsome, _⟩ => nomatch hsome⟩
  | some h =>
    rw [take_of_some hg, Checked.bind_eq_ok]
    constructor
    · rintro ⟨u, hc, hs⟩
      exact ⟨h, rfl, hc, (Except.ok.inj hs).symm⟩
    · rintro ⟨h', hh, hc, rfl⟩
      obtain rfl := Option.some.inj hh
      exact ⟨(), hc, rfl⟩

/-- Once a column is taken, the answer has the histories of all others. -/
theorem get?_erase_of_distinct {x : Nat × Column} (hd : Distinct (x :: members)) {y : Nat × Column}
    (hy : y ∈ members) : (m.erase x.2).get? y.2 = m.get? y.2 := by
  rw [Loaded.get?_erase, if_neg]
  rw [Column.beq_comm, (List.pairwise_cons.1 hd).1 y.2 (List.mem_map_of_mem hy)]
  exact Bool.false_ne_true

/-- An answer that records its ledgers is taken apart if the ledgers suit the columns. -/
theorem foldlM_take (hd : Distinct members)
    (hm : ∀ x ∈ members, ∃ h : History, m.get? x.2 = some h ∧
      h.Records dates sids (ledgerOf ledger? x.2)) :
    (Suited ledger? members ∧ ∃ (pairs : List (Nat × History)) (m' : Loaded),
      members.foldlM (take (dates.length, sids.length)) (ws, m) =
          .ok (pairs.foldl (fun ws x => ws.put x.1 x.2) ws, m') ∧
        List.Forall₂ (fun x y => y.1 = x.1 ∧ y.2.Records dates sids (ledgerOf ledger? x.2)) members pairs) ∨
    (¬Suited ledger? members ∧ ∃ e,
      members.foldlM (take (dates.length, sids.length)) (ws, m) = .error e) := by
  induction members generalizing ws m with
  | nil => exact .inl ⟨fun _ hx => (nomatch hx), [], m, rfl, .nil⟩
  | cons x members ih =>
    have hrest : ∀ y ∈ members, ∃ h : History, (m.erase x.2).get? y.2 = some h ∧
        h.Records dates sids (ledgerOf ledger? y.2) := fun y hy => by
      rw [get?_erase_of_distinct hd hy]
      exact hm y (List.mem_cons_of_mem _ hy)
    obtain ⟨h, hget, hrec⟩ := hm x List.mem_cons_self
    rw [List.foldlM_cons, take_of_some hget]
    by_cases hsuit : (ledgerOf ledger? x.2).Suits x.2
    · have hcheck : check x.2 h (dates.length, sids.length) = .ok () :=
        check_eq_ok.2 ⟨hrec.shape, hrec.dtype.trans hsuit.1, by rw [hrec.missing]; exact hsuit.2⟩
      rw [hcheck]
      rcases @ih (ws.put x.1 h) _ (List.pairwise_cons.1 hd).2 hrest with ⟨hs, pairs, m', hok, hp⟩ | ⟨hno, e, he⟩
      · refine .inl ⟨fun y hy => ?_, (x.1, h) :: pairs, m', hok, .cons ⟨rfl, hrec⟩ hp⟩
        rcases List.mem_cons.1 hy with rfl | hy
        · exact hsuit
        · exact hs y hy
      · exact .inr ⟨fun hs => hno fun y hy => hs y (List.mem_cons_of_mem _ hy), e, he⟩
    · refine .inr ⟨fun hs => hsuit (hs x List.mem_cons_self), Checked.exists_error_iff.2 fun out hout => hsuit ?_⟩
      obtain ⟨_, hstep, -⟩ := Checked.bind_eq_ok.1 hout
      obtain ⟨_, hcheck, -⟩ := Checked.bind_eq_ok.1 hstep
      obtain ⟨-, hdt, hmi⟩ := check_eq_ok.1 hcheck
      exact ⟨hrec.dtype.symm.trans hdt, hrec.missing ▸ hmi⟩

/-- A column that the answer does not have is missed. -/
theorem foldlM_take_of_none {shape : Nat × Nat} {y : Nat × Column} (hy : y ∈ members)
    (hm : m.get? y.2 = none) : ∃ e, members.foldlM (take shape) (ws, m) = .error e := by
  induction members generalizing ws m with
  | nil => cases hy
  | cons x members ih =>
    rw [List.foldlM_cons]
    cases hx : m.get? x.2 with
    | none =>
      obtain ⟨e, he⟩ := @take_of_none ws _ shape _ hx
      exact ⟨e, by rw [he]; rfl⟩
    | some h =>
      rw [take_of_some hx]
      cases check x.2 h shape with
      | error e => exact ⟨e, rfl⟩
      | ok u =>
        rcases List.mem_cons.1 hy with rfl | hy
        · rw [hm] at hx
          cases hx
        · exact ih hy (by rw [Loaded.get?_erase, hm, ite_self])

/-- Of a column that is asked for twice, the second is missed. -/
theorem foldlM_take_of_repeated {shape : Nat × Nat} (hd : ¬Distinct members) :
    ∃ e, members.foldlM (take shape) (ws, m) = .error e := by
  induction members generalizing ws m with
  | nil => exact absurd List.Pairwise.nil hd
  | cons x members ih =>
    rw [List.foldlM_cons]
    cases hx : m.get? x.2 with
    | none =>
      obtain ⟨e, he⟩ := @take_of_none ws _ shape _ hx
      exact ⟨e, by rw [he]; rfl⟩
    | some h =>
      rw [take_of_some hx]
      cases check x.2 h shape with
      | error e => exact ⟨e, rfl⟩
      | ok u =>
        by_cases hrest : Distinct members
        · have hmem : ∃ y ∈ members, (x.2 == y.2) = true := by
            refine Classical.byContradiction fun hno => hd (List.pairwise_cons.2 ⟨fun c hc => ?_, hrest⟩)
            obtain ⟨y, hy, rfl⟩ := List.mem_map.1 hc
            exact Bool.eq_false_iff.2 fun h => hno ⟨y, hy, h⟩
          obtain ⟨y, hy, hxy⟩ := hmem
          exact foldlM_take_of_none hy (by
            rw [Loaded.get?_erase, Column.beq_comm, if_pos hxy])
        · exact ih hrest

/-! ## Groups -/

/-- The request for a group. -/
def requestOf (c : Chunk) (g : Group) : Request where
  domain := c.domain
  columns := g.members.map (·.2)
  dates := c.datesFrom g.extra
  sids := c.sids
  mask := c.maskFrom g.extra

theorem loadGroup_eq (c : Chunk) (ws : Workspace) (g : Group) : loadGroup c ws g =
    loadAll g.loader (requestOf c g) >>= fun m =>
      liftM (g.members.foldlM (take (requestOf c g).shape) (ws, m)) >>= fun state => pure state.1 := rfl

/-- A group that has a column twice is not loaded. -/
theorem loadGroup_of_repeated (c : Chunk) (ws : Workspace) {g : Group} (hd : ¬Distinct g.members) :
    ∃ e, (loadGroup c ws g).Is (.error e) := by
  rw [loadGroup_eq]
  obtain ⟨result, hresult⟩ := exists_loadAll g.loader (requestOf c g)
  cases result with
  | error e => exact ⟨e, hresult.bind_error⟩
  | ok m =>
    obtain ⟨e, he⟩ := @foldlM_take_of_repeated _ ws m (requestOf c g).shape hd
    refine ⟨e, hresult.bind ?_⟩
    rw [he]
    exact (is_lift (.error e)).bind_error

/-- The request for a group without repetitions is regular. -/
theorem requestOf_regular {c : Chunk} {g : Group} (hdates : c.dates.Pairwise (· < ·)) (hsids : c.sids.Nodup)
    (hm : g.members ≠ []) (hd : Distinct g.members) : (requestOf c g).Regular :=
  ⟨by simpa [requestOf] using hm, hdates.drop, hsids, hd⟩

/-- A group is loaded if its columns are distinct and their ledgers suit them. -/
theorem loadGroup_spec {c : Chunk} {g : Group} (hdates : c.dates.Pairwise (· < ·)) (hsids : c.sids.Nodup)
    (hm : g.members ≠ [])
    (hans : Distinct g.members → ∀ columns, columns ≠ [] → columns.Sublist (g.members.map (·.2)) →
      g.loader.Answers ledger? mayRefuse { requestOf c g with columns }) :
    ((Distinct g.members ∧ Suited ledger? g.members) ∧ ∃ pairs : List (Nat × History),
      (loadGroup c ws g).Is (.ok (pairs.foldl (fun ws x => ws.put x.1 x.2) ws)) ∧
        List.Forall₂ (fun x y => y.1 = x.1 ∧
          y.2.Records (c.datesFrom g.extra) c.sids (ledgerOf ledger? x.2)) g.members pairs) ∨
    ((¬(Distinct g.members ∧ Suited ledger? g.members) ∨ mayRefuse) ∧
      ∃ e, (loadGroup c ws g).Is (.error e)) := by
  by_cases hd : Distinct g.members
  · rw [loadGroup_eq]
    rcases loadAll_spec (requestOf_regular hdates hsids hm hd) (hans hd) with ⟨m, hm, hget⟩ | ⟨hmay, e, he⟩
    · have hmem : ∀ x ∈ g.members, ∃ h : History, m.get? x.2 = some h ∧
          h.Records (c.datesFrom g.extra) c.sids (ledgerOf ledger? x.2) :=
        fun x hx => hget x.2 (List.mem_map_of_mem hx)
      have htake := is_lift (g.members.foldlM (take (requestOf c g).shape) (ws, m))
      rcases @foldlM_take _ _ _ _ ws _ hd hmem with ⟨hs, pairs, m', hok, hp⟩ | ⟨hno, e, he⟩
      · refine .inl ⟨⟨hd, hs⟩, pairs, hm.bind ?_, hp⟩
        rw [show g.members.foldlM (take (requestOf c g).shape) (ws, m) = _ from hok] at htake ⊢
        exact htake.bind (is_pure _)
      · refine .inr ⟨.inl fun h => hno h.2, e, hm.bind ?_⟩
        rw [show g.members.foldlM (take (requestOf c g).shape) (ws, m) = _ from he] at htake ⊢
        exact htake.bind_error
    · exact .inr ⟨.inr hmay, e, he.bind_error⟩
  · exact .inr ⟨.inl fun h => hd h.1, loadGroup_of_repeated c ws hd⟩

/-- A group holds columns of its own loader and depth. -/
structure Group.Proper (ls : Loaders) (p : Plan) (g : Group) : Prop where
  columns : ∀ x ∈ g.members, x ∈ p.graph.columns
  serving : ∀ x ∈ g.members, ls.serving? x.2 = some (g.place, g.loader)
  extra : ∀ x ∈ g.members, p.extraOf x.1 = g.extra
  nonempty : g.members ≠ []

variable {ls : Loaders} {p : Plan}

theorem Group.Proper.loader_eq {g h : Group} (hg : g.Proper ls p) (hh : h.Proper ls p)
    (hp : g.place = h.place) : g.loader = h.loader := by
  have at? {g : Group} (hg : g.Proper ls p) : ls.all[g.place]? = some g.loader := by
    obtain ⟨x, hx⟩ := List.exists_mem_of_ne_nil _ hg.nonempty
    have := hg.serving x hx
    rw [Loaders.serving?] at this
    obtain ⟨place, -, this⟩ := Option.bind_eq_some_iff.1 this
    obtain ⟨l, hl, this⟩ := Option.bind_eq_some_iff.1 this
    cases this
    exact hl
  have h1 := at? hg
  rw [hp, at? hh] at h1
  exact (Option.some.inj h1).symm

theorem Group.insert_spec {g : Group} (hg : g.Proper ls p) {gs : List Group}
    (hgs : ∀ h ∈ gs, h.Proper ls p) :
    (∀ h ∈ g.insert gs, h.Proper ls p) ∧
      ∀ x, (∃ h ∈ g.insert gs, x ∈ h.members) ↔ x ∈ g.members ∨ ∃ h ∈ gs, x ∈ h.members := by
  induction gs with
  | nil => exact ⟨fun h hh => List.mem_singleton.1 hh ▸ hg, fun x => by simp [insert]⟩
  | cons h rest ih =>
    have hh := hgs h List.mem_cons_self
    obtain ⟨ih1, ih2⟩ := ih fun k hk => hgs k (List.mem_cons_of_mem _ hk)
    rw [insert]
    split
    · refine ⟨fun k hk => ?_, fun x => by simp⟩
      rcases List.mem_cons.1 hk with rfl | hk
      · exact hg
      · exact hgs k hk
    · split
      · refine ⟨fun k hk => ?_, fun x => ?_⟩
        · rcases List.mem_cons.1 hk with rfl | hk
          · exact hh
          · exact ih1 k hk
        · have := ih2 x
          simp only [List.exists_mem_cons_iff, this]
          tauto
      · rename_i hgh hhg
        simp only [precedes, Bool.or_eq_true, Bool.and_eq_true, decide_eq_true_eq, beq_iff_eq,
          not_or, not_and] at hgh hhg
        have hplace : g.place = h.place := by omega
        have hextra : g.extra = h.extra :=
          UInt64.le_antisymm (UInt64.not_lt.1 (hhg.2 hplace.symm)) (UInt64.not_lt.1 (hgh.2 hplace))
        refine ⟨fun k hk => ?_, fun x => ?_⟩
        · rcases List.mem_cons.1 hk with rfl | hk
          · have happend {P : Nat × Column → Prop} (h1 : ∀ x ∈ h.members, P x)
                (h2 : ∀ x ∈ g.members, P x) : ∀ x ∈ h.members ++ g.members, P x := fun x hx =>
              (List.mem_append.1 hx).elim (h1 x) (h2 x)
            refine ⟨happend hh.columns hg.columns, happend hh.serving fun x hx => ?_,
              happend hh.extra fun x hx => ?_, fun he => hh.nonempty (List.append_eq_nil_iff.1 he).1⟩
            · rw [hg.serving x hx, hplace, hg.loader_eq hh hplace]
            · rw [hg.extra x hx, hextra]
          · exact hgs k (List.mem_cons_of_mem _ hk)
        · simp only [List.exists_mem_cons_iff, List.mem_append]
          tauto

/-- Puts a column, by its node, into the groups. -/
def intoGroups (ls : Loaders) (p : Plan) (gs : List Group) (x : Nat × Column) :
    Except RunError (List Group) := do
  let (place, loader) ← loaderOf ls x.2
  return Group.insert ⟨place, loader, p.extraOf x.1, [x]⟩ gs

theorem groups_eq (ls : Loaders) (p : Plan) : groups ls p = p.graph.columns.foldlM (intoGroups ls p) [] := rfl

/-- Where every column has a loader, the groups hold exactly the columns. -/
theorem groups_spec (hs : ∀ x ∈ p.graph.columns, (ls.serving? x.2).isSome = true) :
    ∃ gs, groups ls p = .ok gs ∧ (∀ g ∈ gs, g.Proper ls p) ∧
      ∀ x, (∃ g ∈ gs, x ∈ g.members) ↔ x ∈ p.graph.columns := by
  have main (xs : List (Nat × Column)) (hx : ∀ x ∈ xs, x ∈ p.graph.columns) (gs : List Group)
      (hgs : ∀ g ∈ gs, g.Proper ls p) :
      ∃ gs', xs.foldlM (intoGroups ls p) gs = .ok gs' ∧
        (∀ g ∈ gs', g.Proper ls p) ∧
        ∀ x, (∃ g ∈ gs', x ∈ g.members) ↔ x ∈ xs ∨ ∃ g ∈ gs, x ∈ g.members := by
    induction xs generalizing gs with
    | nil => exact ⟨gs, rfl, hgs, fun x => by simp⟩
    | cons y xs ih =>
      obtain ⟨node, c⟩ := y
      have hy := hx (node, c) List.mem_cons_self
      obtain ⟨⟨place, loader⟩, hserve⟩ := Option.isSome_iff_exists.1 (hs _ hy)
      have hproper : Group.Proper ls p ⟨place, loader, p.extraOf node, [(node, c)]⟩ := by
        refine ⟨fun x hx => ?_, fun x hx => ?_, fun x hx => ?_, List.cons_ne_nil _ _⟩ <;>
          rw [List.mem_singleton.1 hx]
        · exact hy
        · exact hserve
      obtain ⟨hproper', hmem⟩ := Group.insert_spec hproper hgs
      obtain ⟨gs', hok, hp', hm'⟩ := ih (fun x h => hx x (List.mem_cons_of_mem _ h)) _ hproper'
      refine ⟨gs', ?_, hp', fun x => ?_⟩
      · have hload : loaderOf ls c = .ok (place, loader) := by
          unfold loaderOf
          rw [show ls.serving? c = _ from hserve]
        rw [List.foldlM_cons, intoGroups, hload]
        exact hok
      · simp only [hm', hmem, List.mem_cons, List.not_mem_nil, or_false]
        tauto
  obtain ⟨gs, hok, hp, hm⟩ := main p.graph.columns (fun _ h => h) [] fun _ h => absurd h List.not_mem_nil
  exact ⟨gs, (groups_eq ls p).trans hok, hp, fun x => by rw [hm]; simp⟩

end Run
end AsOf
