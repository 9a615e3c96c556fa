import AsOf.Proofs.Chunks

/-!
# Columns without data

A loader that has no data for a column says so, in the answer to a request for that column or for
several. Columns that were asked for together are then asked for one by one, and a column without
data is missing throughout. Where a loader answers for several columns what it answers for each of
them, or says that one of them has no data, this comes to the same as if the loader itself had
answered with missing values, for one request and for a whole run.

* `Run.loadAll_is`: what a request comes to, whatever the loader.
* `Loader.PerColumn.recovered_eq`: it is what the loader with the missing values answers.
* `Run.Agree`: runs that come to the same.
* `Engine.columns_recovered`: both for all requests and for all runs.
-/
namespace AsOf

/-! ## Answers column by column -/

namespace Loader

variable {l : Loader} {r : Request} {c : Column} {columns : List Column}

/-- The answer to a request for one of its columns by itself. -/
def alone (l : Loader) (r : Request) (c : Column) : Except LoadError Loaded :=
  l.load { r with columns := [c] }

/-- The answers for some columns put together, or the first error. -/
def union (answer : Column → Except LoadError Loaded) (columns : List Column) : Except LoadError Loaded :=
  columns.foldlM (fun m c => m.extend <$> answer c) []

/-- A request that is not for one column gets the answers for each of its columns, put together; or
it is told that there is no data, if one of its columns has none. -/
def PerColumn (l : Loader) : Prop := ∀ r : Request, r.columns.length ≠ 1 →
  l.load r = union (l.alone r) r.columns ∨
    (∃ name, l.load r = .error (.noData name)) ∧ ∃ c ∈ r.columns, ∃ name, l.alone r c = .error (.noData name)

/-- An answer for one column, all missing if there is no data. -/
def orBlank (r : Request) (c : Column) : Except LoadError Loaded → Except LoadError Loaded
  | .error (.noData _) => .ok [(c, .allMissing c.missing r.shape)]
  | answer => answer

/-- The loader that answers with missing values itself. -/
def filled (l : Loader) : Loader where
  number := l.number
  load r :=
    match r.columns with
    | [c] => orBlank r c (l.alone r c)
    | columns => union (fun c => orBlank r c (l.alone r c)) columns

/-- What is made of the answers to a request and to those for single columns. -/
def recovered (l : Loader) (r : Request) : Except LoadError Loaded :=
  match r.columns with
  | [c] => orBlank r c (l.alone r c)
  | columns =>
    match l.load r with
    | .error (.noData _) => union (fun c => orBlank r c (l.alone r c)) columns
    | answer => answer

theorem recovered_of_several (h : ¬∃ c, r.columns = [c]) : l.recovered r = match l.load r with
    | .error (.noData _) => union (fun c => orBlank r c (l.alone r c)) r.columns
    | answer => answer := by
  unfold recovered
  split
  · exact absurd ⟨_, ‹_›⟩ h
  · rfl

theorem filled_of_several (h : ¬∃ c, r.columns = [c]) :
    l.filled.load r = union (fun c => orBlank r c (l.alone r c)) r.columns := by
  unfold filled
  simp only
  split
  · exact absurd ⟨_, ‹_›⟩ h
  · rfl

theorem recovered_of_one (h : r.columns = [c]) : l.recovered r = orBlank r c (l.alone r c) := by
  simp only [recovered, h]

theorem filled_of_one (h : r.columns = [c]) : l.filled.load r = orBlank r c (l.alone r c) := by
  simp only [filled, h]

theorem orBlank_ne_noData {answer : Except LoadError Loaded} {name : String} :
    orBlank r c answer ≠ .error (.noData name) := by
  cases answer with
  | ok m => exact nofun
  | error e => cases e <;> exact nofun

theorem foldlM_ne_noData {answer : Column → Except LoadError Loaded} {name : String}
    (h : ∀ c, answer c ≠ .error (.noData name)) (m : Loaded) :
    columns.foldlM (fun m c => m.extend <$> answer c) m ≠ .error (.noData name) := by
  induction columns generalizing m with
  | nil => exact nofun
  | cons c columns ih =>
    rw [List.foldlM_cons]
    cases hc : answer c with
    | ok one => exact ih _
    | error e =>
      intro he
      obtain rfl := Except.error.inj he
      exact h c hc

/-- Answers among which is no word of missing data are put together as they are. -/
theorem foldlM_orBlank {answer : Column → Except LoadError Loaded} (m : Loaded)
    (h : ∀ name, columns.foldlM (fun m c => m.extend <$> answer c) m ≠ .error (.noData name)) :
    columns.foldlM (fun m c => m.extend <$> orBlank r c (answer c)) m =
      columns.foldlM (fun m c => m.extend <$> answer c) m := by
  induction columns generalizing m with
  | nil => rfl
  | cons c columns ih =>
    rw [List.foldlM_cons] at h ⊢
    rw [List.foldlM_cons]
    cases hc : answer c with
    | ok one =>
      rw [hc] at h
      exact ih _ h
    | error e =>
      rw [hc] at h
      cases e with
      | noData name => exact absurd rfl (h name)
      | _ => rfl

/-- No word of missing data is left. -/
theorem recovered_ne_noData (l : Loader) (r : Request) (name : String) : l.recovered r ≠ .error (.noData name) := by
  by_cases hone : ∃ c, r.columns = [c]
  · obtain ⟨c, hc⟩ := hone
    rw [recovered_of_one hc]
    exact orBlank_ne_noData
  · rw [recovered_of_several hone]
    split
    · exact foldlM_ne_noData (fun _ => orBlank_ne_noData) []
    · rename_i hno
      exact hno name

/-- Where answers are given column by column, what is made of them is what the loader with the
missing values answers. -/
theorem PerColumn.recovered_eq (hl : l.PerColumn) (r : Request) : l.recovered r = l.filled.load r := by
  by_cases hone : ∃ c, r.columns = [c]
  · obtain ⟨c, hc⟩ := hone
    rw [recovered_of_one hc, filled_of_one hc]
  · have hlen : r.columns.length ≠ 1 := fun h => hone (List.length_eq_one_iff.1 h)
    rw [recovered_of_several hone, filled_of_several hone]
    split
    · rfl
    · rename_i hno
      rcases hl r hlen with hunion | ⟨⟨name, hnone⟩, -⟩
      · rw [hunion] at hno ⊢
        exact (foldlM_orBlank [] hno).symm
      · exact absurd hnone (hno name)

theorem recovered_filled (l : Loader) (r : Request) : l.filled.recovered r = l.filled.load r := by
  by_cases hone : ∃ c, r.columns = [c]
  · obtain ⟨c, hc⟩ := hone
    have halone : l.filled.alone r c = orBlank r c (l.alone r c) := rfl
    rw [recovered_of_one hc, filled_of_one hc, halone]
    cases l.alone r c with
    | ok m => rfl
    | error e => cases e <;> rfl
  · rw [recovered_of_several hone]
    split
    · rename_i name hload
      rw [filled_of_several hone] at hload
      exact absurd hload (foldlM_ne_noData (fun _ => orBlank_ne_noData) [])
    · rfl

/-! ## Distinct columns -/

/-- Every column has a history of its own, or no data. -/
def Each (l : Loader) (r : Request) : Prop := ∀ c ∈ r.columns,
  (∃ h, l.alone r c = .ok [(c, h)]) ∨ ∃ name, l.alone r c = .error (.noData name)

/-- The history of a column, all missing if there is no data. -/
def historyOrBlank (l : Loader) (r : Request) (c : Column) : History :=
  match l.alone r c with
  | .ok m => (m.get? c).getD (.allMissing c.missing r.shape)
  | .error _ => .allMissing c.missing r.shape

theorem Each.orBlank_eq (he : l.Each r) (hc : c ∈ r.columns) :
    orBlank r c (l.alone r c) = .ok [(c, l.historyOrBlank r c)] := by
  unfold historyOrBlank
  rcases he c hc with ⟨h, hh⟩ | ⟨name, hn⟩
  · simp only [hh, Loaded.get?_cons, beq_self_eq_true, if_true]
    rfl
  · simp only [hn]
    rfl

end Loader

namespace Loaded

theorem perm_insert {m : Loaded} {c : Column} (hc : ∀ x ∈ m, (c == x.1) = false) (h : History) :
    (m.insert c h).Perm ((c, h) :: m) := by
  induction m with
  | nil => exact .refl _
  | cons x m ih =>
    rw [insert, if_neg (Bool.eq_false_iff.1 (hc x List.mem_cons_self))]
    split
    · exact .refl _
    · exact ((ih fun y hy => hc y (List.mem_cons_of_mem _ hy)).cons x).trans (.swap ..)

/-- Histories of further columns are put beside those there are. -/
theorem perm_extend {a b : Loaded} (hb : b.Apart) (hab : ∀ x ∈ b, ∀ y ∈ a, (x.1 == y.1) = false) :
    (a.extend b).Perm (a ++ b) := by
  induction b generalizing a with
  | nil => rw [List.append_nil]; exact .refl _
  | cons x b ih =>
    obtain ⟨hx, hb⟩ := List.pairwise_cons.1 hb
    have hput := perm_insert (hab x List.mem_cons_self) x.2
    refine (ih hb fun y hy z hz => ?_).trans ((hput.append_right b).trans List.perm_middle.symm)
    rcases List.mem_cons.1 (hput.mem_iff.1 hz) with rfl | hz
    · rw [Column.beq_comm]
      exact hx y hy
    · exact hab y (List.mem_cons_of_mem _ hy) z hz

end Loaded

namespace Loader

variable {l : Loader} {r : Request} {columns : List Column}

theorem Each.foldlM_eq (he : l.Each r) (hc : ∀ c ∈ columns, c ∈ r.columns) (m : Loaded) :
    columns.foldlM (fun m c => m.extend <$> orBlank r c (l.alone r c)) m =
      .ok (m.extend (columns.map fun c => (c, l.historyOrBlank r c))) := by
  induction columns generalizing m with
  | nil => rfl
  | cons c columns ih =>
    rw [List.foldlM_cons, he.orBlank_eq (hc c List.mem_cons_self)]
    exact ih (fun c h => hc c (List.mem_cons_of_mem _ h)) _

/-- Distinct columns have one history each. -/
theorem Each.filled_eq (he : l.Each r) (hd : r.columns.Pairwise fun a b => (a == b) = false) :
    ∃ m, l.filled.load r = .ok m ∧ m.Perm (r.columns.map fun c => (c, l.historyOrBlank r c)) := by
  have hapart : Loaded.Apart (r.columns.map fun c => (c, l.historyOrBlank r c)) := List.pairwise_map.2 hd
  by_cases hone : ∃ c, r.columns = [c]
  · obtain ⟨c, hc⟩ := hone
    rw [filled_of_one hc, he.orBlank_eq (hc ▸ List.mem_cons_self), hc]
    exact ⟨_, rfl, .refl _⟩
  · rw [filled_of_several hone]
    exact ⟨_, he.foldlM_eq (fun _ h => h) [], Loaded.perm_extend hapart fun _ _ _ hy => absurd hy List.not_mem_nil⟩

end Loader

/-- Every loader with the missing values. -/
def Loaders.filled (ls : Loaders) : Loaders := { ls with all := ls.all.map Loader.filled }

namespace Run

variable {α β γ : Type}

/-! ## What a request comes to -/

section Requests

variable {l : Loader} {r : Request} {c : Column}

theorem loadOne_is (l : Loader) (r : Request) (c : Column) :
    (loadOne l r c).Is ((Loader.orBlank r c (l.alone r c)).mapError .load) := by
  have hrest : (liftM (orMissing { r with columns := [c] } c (l.alone r c)) : Run Loaded).Is
      ((Loader.orBlank r c (l.alone r c)).mapError .load) := by
    cases l.alone r c with
    | ok m => exact is_lift _
    | error e => cases e <;> exact is_lift _
  exact (is_call l { r with columns := [c] }).bind hrest

theorem foldlM_loadOne_is (l : Loader) (r : Request) (columns : List Column) (m : Loaded) :
    (columns.foldlM (fun m c => do return m.extend (← loadOne l r c)) m : Run Loaded).Is
      ((columns.foldlM (fun m c => m.extend <$> Loader.orBlank r c (l.alone r c)) m).mapError .load) := by
  induction columns generalizing m with
  | nil => exact is_pure m
  | cons c columns ih =>
    have hone := loadOne_is l r c
    rw [List.foldlM_cons, List.foldlM_cons]
    cases hc : Loader.orBlank r c (l.alone r c) with
    | ok one =>
      rw [hc] at hone
      exact (hone.bind (f := fun one => pure (m.extend one)) (is_pure _)).bind (ih _)
    | error e =>
      rw [hc] at hone
      exact hone.bind_error.bind_error

/-- What a request comes to. -/
theorem loadAll_is (l : Loader) (r : Request) : (loadAll l r).Is ((l.recovered r).mapError .load) := by
  by_cases hone : ∃ c, r.columns = [c]
  · obtain ⟨c, hc⟩ := hone
    have hall : loadAll l r = loadOne l r c := by
      unfold loadAll
      rw [hc]
    rw [hall, Loader.recovered_of_one hc]
    exact loadOne_is l r c
  · rw [loadAll_eq hone, Loader.recovered_of_several hone]
    refine (is_call l r).bind ?_
    cases l.load r with
    | ok m => exact is_pure m
    | error e =>
      cases e with
      | noData name => exact foldlM_loadOne_is l r r.columns []
      | _ => exact is_throw _

end Requests

/-! ## How often loaders are asked -/

/-- The run makes at most so many calls. -/
def Asks (n : Nat) (x : Run α) : Prop :=
  ∀ calls : List Call, ∃ asked, (x.run.run calls).2 = calls ++ asked ∧ asked.length ≤ n

theorem asks_pure (a : α) : Asks 0 (pure a : Run α) := fun calls => ⟨[], (List.append_nil calls).symm, Nat.le_refl 0⟩

theorem asks_throw (e : RunError) : Asks 0 (throw e : Run α) :=
  fun calls => ⟨[], (List.append_nil calls).symm, Nat.le_refl 0⟩

theorem asks_lift (x : Except RunError α) : Asks 0 (liftM x : Run α) := makes_lift (Nat.le_refl 0) x

theorem asks_call (l : Loader) (r : Request) : Asks 1 (call l r) := fun _ => ⟨[⟨l.number, r⟩], rfl, Nat.le_refl 1⟩

theorem Asks.mono {m n : Nat} {x : Run α} (hx : Asks m x) (h : m ≤ n) : Asks n x := fun calls =>
  (hx calls).imp fun _ hasked => ⟨hasked.1, hasked.2.trans h⟩

theorem Asks.bind {m n : Nat} {x : Run α} {f : α → Run β} (hx : Asks m x) (hf : ∀ a, Asks n (f a)) :
    Asks (m + n) (x >>= f) :=
  Makes.bind (P := (·.length ≤ m)) (Q := (·.length ≤ n)) hx hf (fun _ hmade => Nat.le_add_right_of_le hmade)
    fun _ _ hmade hmore => List.length_append ▸ Nat.add_le_add hmade hmore

theorem asks_foldlM {step : α → γ → Run α} (h : ∀ a c, Asks 1 (step a c)) (cs : List γ) (a : α) :
    Asks cs.length (cs.foldlM step a) := by
  induction cs generalizing a with
  | nil => exact asks_pure a
  | cons c cs ih =>
    rw [List.foldlM_cons, List.length_cons, Nat.add_comm]
    exact (h a c).bind ih

theorem asks_loadOne (l : Loader) (r : Request) (c : Column) : Asks 1 (loadOne l r c) :=
  (asks_call l _).bind fun _ => asks_lift _

/-- A loader is asked once for all columns and at most once for each. -/
theorem asks_loadAll (l : Loader) (r : Request) : Asks (1 + r.columns.length) (loadAll l r) := by
  by_cases hone : ∃ c, r.columns = [c]
  · obtain ⟨c, hc⟩ := hone
    have hall : loadAll l r = loadOne l r c := by
      unfold loadAll
      rw [hc]
    rw [hall]
    exact (asks_loadOne l r c).mono (Nat.le_add_right ..)
  · rw [loadAll_eq hone]
    refine (asks_call l r).bind fun answer => ?_
    unfold onAnswer
    split
    · exact (asks_pure _).mono (Nat.zero_le _)
    · exact asks_foldlM (fun m c => (asks_loadOne l r c).bind fun _ => asks_pure _) _ []
    · exact (asks_throw _).mono (Nat.zero_le _)

/-! ## Runs that come to the same -/

/-- The runs come to one result, whatever calls were made before. -/
def Agree (x y : Run α) : Prop := ∃ result, x.Is result ∧ y.Is result

theorem agree_pure (a : α) : Agree (pure a) (pure a) := ⟨_, is_pure a, is_pure a⟩

theorem agree_lift (x : Except RunError α) : Agree (liftM x) (liftM x) := ⟨x, is_lift x, is_lift x⟩

theorem Agree.bind {x y : Run α} {f g : α → Run β} (hx : Agree x y) (hf : ∀ a, Agree (f a) (g a)) :
    Agree (x >>= f) (y >>= g) := by
  obtain ⟨result, hx, hy⟩ := hx
  cases result with
  | error e => exact ⟨_, hx.bind_error, hy.bind_error⟩
  | ok a =>
    obtain ⟨result, hf, hg⟩ := hf a
    exact ⟨result, hx.bind hf, hy.bind hg⟩

theorem agree_foldlM {f g : α → γ → Run α} {cs : List γ} (h : ∀ c ∈ cs, ∀ a, Agree (f a c) (g a c)) (a : α) :
    Agree (cs.foldlM f a) (cs.foldlM g a) := by
  induction cs generalizing a with
  | nil => exact agree_pure a
  | cons c cs ih =>
    rw [List.foldlM_cons, List.foldlM_cons]
    exact (h c List.mem_cons_self a).bind fun a => ih (fun c hc => h c (List.mem_cons_of_mem _ hc)) a

theorem Agree.run_eq {x y : Run α} (h : Agree x y) (calls calls' : List Call) :
    (x.run.run calls).1 = (y.run.run calls').1 := by
  obtain ⟨result, hx, hy⟩ := h
  rw [hx calls, hy calls']

/-! ## Groups with the missing values -/

section Loading

variable {ls : Loaders} {p : Plan}

theorem agree_loadAll {l : Loader} (hl : l.PerColumn) (r : Request) : Agree (loadAll l r) (loadAll l.filled r) := by
  have hfilled := loadAll_is l.filled r
  rw [l.recovered_filled, ← hl.recovered_eq] at hfilled
  exact ⟨_, loadAll_is l r, hfilled⟩

/-- A group of a loader with the missing values. -/
def Group.filled (g : Group) : Group := { g with loader := g.loader.filled }

theorem Group.filled_insert (g : Group) (gs : List Group) :
    g.filled.insert (gs.map filled) = (g.insert gs).map filled := by
  induction gs with
  | nil => rfl
  | cons h gs ih =>
    -- the loaders do not tell where a group belongs
    have hgh : g.filled.precedes h.filled = g.precedes h := rfl
    have hhg : h.filled.precedes g.filled = h.precedes g := rfl
    rw [List.map_cons, insert, insert, hgh, hhg, ih]
    split
    · rfl
    · split <;> rfl

theorem loaderOf_filled (ls : Loaders) (c : Column) :
    loaderOf ls.filled c = (fun found => (found.1, found.2.filled)) <$> loaderOf ls c := by
  have hserving : ls.filled.serving? c = (ls.serving? c).map fun found => (found.1, found.2.filled) := by
    unfold Loaders.serving?
    show (ls.byDataset.lookup c.dataset >>= fun place => (ls.all.map Loader.filled)[place]? >>= _) = _
    cases ls.byDataset.lookup c.dataset with
    | none => rfl
    | some place =>
      simp only [List.getElem?_map, Option.bind_eq_bind, Option.bind_some]
      cases ls.all[place]? <;> rfl
  unfold loaderOf
  rw [hserving]
  cases ls.serving? c <;> rfl

theorem groups_filled (ls : Loaders) (p : Plan) : groups ls.filled p = List.map Group.filled <$> groups ls p := by
  have main (xs : List (Nat × Column)) (gs : List Group) :
      xs.foldlM (intoGroups ls.filled p) (gs.map Group.filled) =
        List.map Group.filled <$> xs.foldlM (intoGroups ls p) gs := by
    induction xs generalizing gs with
    | nil => rfl
    | cons x xs ih =>
      rw [List.foldlM_cons, List.foldlM_cons, intoGroups, intoGroups, loaderOf_filled]
      cases loaderOf ls x.2 with
      | error e => rfl
      | ok found =>
        have hput := Group.filled_insert ⟨found.1, found.2, p.extraOf x.1, [x]⟩ gs
        exact (congrArg (xs.foldlM (intoGroups ls.filled p)) hput).trans (ih _)
  exact main p.graph.columns []

/-- The loaders of the groups are among those in use. -/
theorem loader_mem_of_groups {gs : List Group} (h : groups ls p = .ok gs) : ∀ g ∈ gs, g.loader ∈ ls.all := by
  have hinsert (g : Group) (hg : g.loader ∈ ls.all) (gs : List Group) (hgs : ∀ h ∈ gs, h.loader ∈ ls.all) :
      ∀ h ∈ g.insert gs, h.loader ∈ ls.all := by
    induction gs with
    | nil => exact fun h hh => List.mem_singleton.1 hh ▸ hg
    | cons k gs ih =>
      have hk := hgs k List.mem_cons_self
      have hrest : ∀ h ∈ gs, h.loader ∈ ls.all := fun h hh => hgs h (List.mem_cons_of_mem _ hh)
      rw [Group.insert]
      split
      · exact List.forall_mem_cons.2 ⟨hg, hgs⟩
      · split
        · exact List.forall_mem_cons.2 ⟨hk, ih hrest⟩
        · exact List.forall_mem_cons.2 ⟨hk, hrest⟩
  rw [groups_eq] at h
  refine Checked.foldlM_keeps (P := fun gs : List Group => ∀ g ∈ gs, g.loader ∈ ls.all)
    (fun g hg => absurd hg List.not_mem_nil) ?_ h
  intro x _ gs gs' hgs hstep
  obtain ⟨⟨place, loader⟩, hfound, hstep⟩ := Checked.bind_eq_ok.1 hstep
  obtain rfl := Except.ok.inj hstep
  refine hinsert _ ?_ gs hgs
  unfold loaderOf at hfound
  cases hserving : ls.serving? x.2 with
  | none =>
    rw [hserving] at hfound
    cases hfound
  | some found =>
    rw [hserving] at hfound
    obtain rfl := Except.ok.inj hfound
    obtain ⟨place', -, hserving⟩ := Option.bind_eq_some_iff.1 hserving
    obtain ⟨l, hl, hserving⟩ := Option.bind_eq_some_iff.1 hserving
    obtain rfl := (Prod.mk.inj (Option.some.inj hserving)).2
    exact List.mem_of_getElem? hl

theorem agree_loadGroup {g : Group} (hg : g.loader.PerColumn) (c : Chunk) (ws : Workspace) :
    Agree (loadGroup c ws g) (loadGroup c ws g.filled) :=
  (agree_loadAll hg _).bind fun _ => (agree_lift _).bind fun _ => agree_pure _

theorem agree_loadColumns (hl : ∀ l ∈ ls.all, l.PerColumn) (p : Plan) (c : Chunk) (ws : Workspace) :
    Agree (loadColumns ls p c ws) (loadColumns ls.filled p c ws) := by
  have hload (ls : Loaders) : loadColumns ls p c ws =
      liftM (groups ls p) >>= fun gs => gs.foldlM (loadGroup c) ws := rfl
  rw [hload, hload, groups_filled]
  cases hgs : groups ls p with
  | error e => exact ⟨.error e, (is_lift (.error e)).bind_error, (is_lift (.error e)).bind_error⟩
  | ok gs =>
    obtain ⟨result, hx, hy⟩ := agree_foldlM (f := loadGroup c) (g := fun ws g => loadGroup c ws g.filled)
      (fun g hg ws => agree_loadGroup (hl _ (loader_mem_of_groups hgs g hg)) c ws) ws
    refine ⟨result, (is_lift (.ok gs)).bind hx, (is_lift (.ok (gs.map Group.filled))).bind ?_⟩
    rw [List.foldlM_map]
    exact hy

end Loading
end Run

/-! ## Whole runs -/

namespace Engine

open Run

variable {e : Engine} {p : Plan}

/-- The engine whose loaders answer with missing values. -/
def filled (e : Engine) : Engine := { e with loaders := e.loaders.filled }

theorem prepare_filled (e : Engine) (pipeline : Pipeline) (start stop : Date) :
    e.filled.prepare pipeline start stop = e.prepare pipeline start stop := by
  have hserve (c : Column) : discard (loaderOf e.loaders.filled c) = discard (loaderOf e.loaders c) := by
    rw [loaderOf_filled]
    cases loaderOf e.loaders c <;> rfl
  unfold prepare filled
  simp only [hserve]

theorem agree_runChunk (hl : ∀ l ∈ e.loaders.all, l.PerColumn) (p : Plan) (c : Chunk) :
    Agree (e.runChunk p c) (e.filled.runChunk p c) :=
  (agree_lift _).bind fun ws => (agree_loadColumns hl p c ws).bind fun _ => (agree_lift _).bind fun _ => agree_lift _

/-- Whether a run is cancelled depends on the number of chunks alone. -/
def Chunkwise (cancelled : Cancellation) : Prop :=
  ∀ completed calls calls', cancelled completed calls = cancelled completed calls'

theorem agree_stepChunk (hl : ∀ l ∈ e.loaders.all, l.PerColumn) {cancelled : Cancellation} (hc : Chunkwise cancelled)
    (domain : Domain) (sessions : Array Date) (sids : List Sid) (parts : List Result) (x : Nat × Nat) :
    Agree (e.stepChunk p domain sessions sids cancelled parts x)
      (e.filled.stepChunk p domain sessions sids cancelled parts x) := by
  by_cases hnow : cancelled parts.length [] = true
  · have hstop (e : Engine) : (e.stepChunk p domain sessions sids cancelled parts x).Is
        (.error (.cancelled parts.length)) := fun calls => by
      rw [run_stepChunk, if_pos (by rwa [hc _ calls []])]
    exact ⟨_, hstop e, hstop e.filled⟩
  · obtain ⟨result, hx, hy⟩ := (agree_runChunk hl p (e.chunkOf p domain sessions sids x.1 x.2)).bind
      fun part => agree_pure (parts ++ [part])
    refine ⟨result, fun calls => ?_, fun calls => ?_⟩
    · rw [run_stepChunk, if_neg (by rwa [hc _ calls []])]
      exact hx calls
    · rw [run_stepChunk, if_neg (by rwa [hc _ calls []])]
      exact hy calls

theorem agree_work (hl : ∀ l ∈ e.loaders.all, l.PerColumn) {cancelled : Cancellation} (hc : Chunkwise cancelled)
    (job : Job) (start stop : Date) (size : Nat) :
    Agree (e.work job start stop size cancelled) (e.filled.work job start stop size cancelled) := by
  unfold work
  cases sessionRange? job.calendar start stop with
  | none => exact agree_pure _
  | some range =>
    refine (agree_lift _).bind fun p => Agree.bind ?_ fun _ => agree_lift _
    exact agree_foldlM (fun x _ parts => agree_stepChunk hl hc _ _ _ parts x) []

theorem agree_runChunked (hl : ∀ l ∈ e.loaders.all, l.PerColumn) {cancelled : Cancellation} (hc : Chunkwise cancelled)
    (pipeline : Pipeline) (start stop : Date) (size : Nat) :
    Agree (e.runChunked pipeline start stop size cancelled) (e.filled.runChunked pipeline start stop size cancelled) := by
  by_cases hsize : size = 0
  · have hzero (e : Engine) : (e.runChunked pipeline start stop size cancelled).Is (.error (.config .zeroChunk)) := by
      unfold runChunked
      rw [if_pos hsize]
      exact (is_throw _).bind_error
    exact ⟨_, hzero e, hzero e.filled⟩
  · rw [runChunked_eq e _ _ _ hsize, runChunked_eq e.filled _ _ _ hsize, prepare_filled]
    exact (agree_lift _).bind fun job => agree_work hl hc job start stop size

/-- A request comes to an end after at most one call more than it has columns, and never with word of
missing data. Where answers are given column by column, distinct columns get one history each: that
of the answer for the column alone, or one in which all is missing; and no run differs from one with
loaders that answer with the missing values. -/
theorem columns_recovered :
    (∀ (l : Loader) (r : Request), Asks (1 + r.columns.length) (loadAll l r) ∧
      ∃ result, (loadAll l r).Is result ∧ ∀ name, result ≠ .error (.load (.noData name))) ∧
    (∀ (l : Loader) (r : Request), l.PerColumn → (r.columns.Pairwise fun a b => (a == b) = false) → l.Each r →
      ∃ m, (loadAll l r).Is (.ok m) ∧ (m.map (·.1)).Perm r.columns ∧ ∀ c ∈ r.columns,
        (∀ h, l.alone r c = .ok [(c, h)] → m.get? c = some h) ∧
        ∀ name, l.alone r c = .error (.noData name) → m.get? c = some (.allMissing c.missing r.shape)) ∧
    ∀ e : Engine, (∀ l ∈ e.loaders.all, l.PerColumn) → ∀ cancelled, Chunkwise cancelled →
      ∀ pipeline start stop size, Agree (e.runChunked pipeline start stop size cancelled)
        (e.filled.runChunked pipeline start stop size cancelled) := by
  refine ⟨fun l r => ⟨asks_loadAll l r, _, loadAll_is l r, fun name h => ?_⟩, fun l r hl hd he => ?_,
    fun e hl cancelled hc => agree_runChunked hl hc⟩
  · cases hrecovered : l.recovered r with
    | ok m =>
      rw [hrecovered] at h
      cases h
    | error e =>
      rw [hrecovered] at h
      obtain rfl : e = .noData name := by
        injection h with h
        injection h
      exact l.recovered_ne_noData r name hrecovered
  · obtain ⟨m, hm, hperm⟩ := he.filled_eq hd
    have his := loadAll_is l r
    rw [hl.recovered_eq, hm] at his
    have hget (c : Column) (hc : c ∈ r.columns) : m.get? c = some (l.historyOrBlank r c) := by
      have hapart : m.Apart := by
        refine List.Pairwise.perm ?_ hperm.symm fun h => (Column.beq_comm ..).trans h
        exact List.pairwise_map.2 hd
      exact hapart.get?_of_mem (hperm.mem_iff.2 (List.mem_map_of_mem hc))
    refine ⟨m, his, ?_, fun c hc => ⟨fun h hh => ?_, fun name hn => ?_⟩⟩
    · have hkeys := hperm.map (·.1)
      rwa [List.map_map, show ((·.1) ∘ fun c => (c, l.historyOrBlank r c)) = (id : Column → Column) from rfl,
        List.map_id] at hkeys
    · rw [hget c hc, Loader.historyOrBlank, hh]
      simp only [Loaded.get?_cons, beq_self_eq_true, if_true, Option.getD_some]
    · rw [hget c hc, Loader.historyOrBlank, hn]

end Engine

namespace Tables

/-- Tables answer column by column. -/
theorem perColumn (t : Tables) (number : Nat) : (t.loader number).PerColumn := by
  intro r _
  refine .inl ?_
  have halone (c : Column) : (t.loader number).alone r c = (t.answer r c).map fun h => [(c, h)] := by
    have hsame : t.answer { r with columns := [c] } c = t.answer r c := rfl
    show t.load { r with columns := [c] } = _
    rw [load_eq, List.mapM_cons, hsame]
    cases t.answer r c <;> rfl
  show t.load r = _
  unfold load Loader.union
  congr 1
  funext m c
  rw [halone]
  unfold answer
  cases t.tables.get? (key c) with
  | none => rfl
  | some table =>
    simp only
    cases t.historyOf table r c.missing <;> rfl

/-- A column of the data set that there is no data for. -/
def fee : Column := ⟨"Rates", "fee", .int64, .int 3, .generic⟩

/-- A request for it and for the numbers. -/
def feeAndRate : Request := .unmasked [fee, rate] [⟨0⟩, ⟨1⟩, ⟨2⟩] [⟨1⟩]

end Tables

namespace Engine

open Run Tables

/-- The two columns as they are. -/
def feePipeline : Pipeline := { columns := [("fee", .ofColumn fee), ("rate", .ofColumn rate)] }

theorem each_feeAndRate : ((rates []).loader 1).Each feeAndRate := by
  intro c hc
  rcases List.mem_cons.1 hc with rfl | hc
  · exact .inr ⟨_, rfl⟩
  · obtain rfl := List.mem_singleton.1 hc
    exact .inl ⟨_, rfl⟩

/-- One of two columns has no data. Both are found, and so they are in a run. -/
theorem columns_recovered_fee :
    (∃ m, (loadAll ((rates []).loader 1) feeAndRate).Is (.ok m) ∧ (m.map (·.1)).Perm [fee, rate] ∧
      m.get? fee = some (.allMissing (.int 3) (3, 1))) ∧
    (((rateEngine []).filled.runChunked feePipeline ⟨0⟩ ⟨2⟩ 2 .never).run.run []).1 =
      .ok ⟨#[⟨0⟩, ⟨1⟩, ⟨2⟩], #[⟨1⟩, ⟨1⟩, ⟨1⟩], [("fee", .ints [3, 3, 3]), ("rate", .ints [1, 1, 1])]⟩ := by
  constructor
  · obtain ⟨m, hm, hkeys, hget⟩ := columns_recovered.2.1 ((rates []).loader 1) feeAndRate (perColumn _ 1)
      (by decide) each_feeAndRate
    exact ⟨m, hm, hkeys, (hget fee List.mem_cons_self).2 _ rfl⟩
  · have hrun : (((rateEngine []).runChunked feePipeline ⟨0⟩ ⟨2⟩ 2 .never).run.run []).1 =
        .ok ⟨#[⟨0⟩, ⟨1⟩, ⟨2⟩], #[⟨1⟩, ⟨1⟩, ⟨1⟩], [("fee", .ints [3, 3, 3]), ("rate", .ints [1, 1, 1])]⟩ := by cbv
    have hloaders : ∀ l ∈ (rateEngine []).loaders.all, l.PerColumn := fun l hl =>
      List.mem_singleton.1 hl ▸ perColumn _ 1
    rw [← (columns_recovered.2.2 (rateEngine []) hloaders .never (fun _ _ _ => rfl) feePipeline ⟨0⟩ ⟨2⟩ 2).run_eq []]
    exact hrun

end Engine
end AsOf
