import AsOf.Proofs.Run.Given
import AsOf.Proofs.Run.Shape

/-!
# Groups of columns that can be loaded

The groups of a plan are in the order of their loaders and depths, none of them twice, and
hold every column once. So a column that two nodes read at one depth is twice in one group,
and that is all that can go wrong with loaders which answer every request with a history of
the right shape, type and missing value for each column.

* `Run.groups_once`: what the groups hold.
* `Run.loadColumns_iff`: loading succeeds exactly if no column is read twice at one depth.
* `Run.fills_loadColumns`: what succeeds has filled in the nodes of all columns.
-/
namespace AsOf

/-! ## Loaders that conform -/

/-- Every column of a request gets a history of the right shape, type and missing value. -/
def Loader.Meets (l : Loader) (r : Request) : Prop :=
  ∃ m, l.load r = .ok m ∧ ∀ c ∈ r.columns, ∃ h : History, m.get? c = some h ∧
    h.shape = r.shape ∧ h.dtype = c.dtype ∧ (h.missing == c.missing) = true

/-- Every regular request for columns that one loader serves is met. -/
def Loaders.Conform (ls : Loaders) (asks : Column → Prop) : Prop :=
  ∀ place l r, r.Regular → (∀ c ∈ r.columns, asks c ∧ ls.serving? c = some (place, l)) → l.Meets r

/-- Loaders that keep a suitable ledger of every column conform. -/
theorem Loaders.Keep.conform {ls : Loaders} {asks : Column → Prop} {ledger? : List Date → Column → Option Ledger}
    (hk : ls.Keep asks ledger? False) (hs : ∀ dates c, asks c → ∃ k, ledger? dates c = some k ∧ k.Suits c) :
    ls.Conform asks := by
  intro place l r hr hserved
  obtain ⟨m, hm, -, -, hget⟩ := ((hk place l r hr hserved).resolve_right fun h => h.1).ok fun c hc => by
    obtain ⟨k, hk, -⟩ := hs r.dates c (hserved c hc).1
    exact Option.isSome_iff_exists.2 ⟨k, hk⟩
  refine ⟨m, hm, fun c hc => ?_⟩
  obtain ⟨k, hk, hdtype, hmissing⟩ := hs r.dates c (hserved c hc).1
  obtain ⟨h, hh, hrec⟩ := hget c hc k hk
  exact ⟨h, hh, hrec.shape, hrec.dtype.trans hdtype, hrec.missing ▸ hmissing⟩

namespace TermGraph

variable {g : TermGraph} {node : Nat} {c c' : Column}

/-- A node has one column. -/
theorem column_unique (h : (node, c) ∈ g.columns) (h' : (node, c') ∈ g.columns) : c = c' := by
  obtain ⟨t, ht, hc⟩ := mem_columns.1 h
  obtain ⟨t', ht', hc'⟩ := mem_columns.1 h'
  obtain rfl := Option.some.inj (ht.symm.trans ht')
  exact Option.some.inj (hc.symm.trans hc')

theorem nodup_columns (g : TermGraph) : g.columns.Nodup := by
  have hnodes : g.terms.toList.zipIdx.Pairwise fun x y => x.2 ≠ y.2 :=
    List.pairwise_map.1 (by rw [List.zipIdx_map_snd]; exact List.nodup_range')
  refine hnodes.filterMap _ fun x y hne a ha b hb => ?_
  obtain ⟨_, -, rfl⟩ := Option.map_eq_some_iff.1 ha
  obtain ⟨_, -, rfl⟩ := Option.map_eq_some_iff.1 hb
  exact fun h => hne (Prod.mk.inj h).1

end TermGraph

/-- No column is read by two nodes at one depth. -/
def Plan.ReadsOnce (p : Plan) : Prop :=
  ∀ x ∈ p.graph.columns, ∀ y ∈ p.graph.columns, (x.2 == y.2) = true → p.extraOf x.1 = p.extraOf y.1 → x.1 = y.1

/-! ## What is filled in -/

/-- Exactly some nodes have been filled in. -/
structure Workspace.Fills (nodes : Nat → Prop) (ws ws' : Workspace) : Prop where
  size : ws'.size = ws.size
  isSome_iff : ∀ k < ws.size, (ws'.get? k).isSome = true ↔ (ws.get? k).isSome = true ∨ nodes k

namespace Workspace.Fills

variable {A B : Nat → Prop} {ws ws' ws'' : Workspace}

theorem refl (ws : Workspace) : Fills (fun _ => False) ws ws := ⟨rfl, fun _ _ => (or_false _).to_iff.symm⟩

theorem put (ws : Workspace) (node : Nat) (h : History) : Fills (node = ·) ws (ws.put node h) := by
  refine ⟨size_put, fun k hk => ?_⟩
  by_cases hn : node < ws.size
  · rw [get?_put hn]
    by_cases hkn : k = node
    · simp [hkn]
    · simp [hkn, Ne.symm hkn]
  · rw [Workspace.put, Array.setIfInBounds_eq_of_size_le (Nat.le_of_not_lt hn)]
    exact ⟨.inl, fun h => h.resolve_right fun e => hn (e ▸ hk)⟩

theorem trans (h : Fills A ws ws') (h' : Fills B ws' ws'') : Fills (fun k => A k ∨ B k) ws ws'' :=
  ⟨h'.size.trans h.size, fun k hk => by rw [h'.isSome_iff k (h.size ▸ hk), h.isSome_iff k hk, or_assoc]⟩

theorem congr (h : Fills A ws ws') (hAB : ∀ k, A k ↔ B k) : Fills B ws ws' :=
  ⟨h.size, fun k hk => by rw [h.isSome_iff k hk, hAB]⟩

end Workspace.Fills

namespace Run

variable {ls : Loaders} {p : Plan} {c : Chunk} {ws ws' : Workspace} {m : Loaded} {members : List (Nat × Column)}

/-! ## The order of the groups -/

theorem Group.precedes_iff {a b : Group} :
    a.precedes b = true ↔ a.place < b.place ∨ a.place = b.place ∧ a.extra < b.extra := by
  simp [precedes]

theorem Group.precedes_trans {a b c : Group} (hab : a.precedes b = true) (hbc : b.precedes c = true) :
    a.precedes c = true := by
  simp only [precedes_iff, UInt64.lt_iff_toNat_lt] at *
  omega

/-- Groups by loader and depth, none of them twice. -/
def Sorted (gs : List Group) : Prop := gs.Pairwise fun a b => a.precedes b = true

theorem Sorted.unique {gs : List Group} (hs : Sorted gs) {g h : Group} (hg : g ∈ gs) (hh : h ∈ gs)
    (hplace : g.place = h.place) (hextra : g.extra = h.extra) : g = h := by
  by_contra hne
  have hsymm : Std.Symm fun a b : Group => a.place ≠ b.place ∨ a.extra ≠ b.extra :=
    ⟨fun a b h => h.imp Ne.symm Ne.symm⟩
  have hapart : gs.Pairwise fun a b => a.place ≠ b.place ∨ a.extra ≠ b.extra := hs.imp fun hab => by
    rcases Group.precedes_iff.1 hab with h | ⟨-, h⟩
    · exact .inl (Nat.ne_of_lt h)
    · exact .inr (UInt64.ne_of_lt h)
  exact (hapart.forall hg hh hne).elim (fun h => h hplace) fun h => h hextra

/-- A group that is put in leaves no other places and depths than there were. -/
theorem Group.at_insert {g h : Group} {gs : List Group} (hh : h ∈ g.insert gs) :
    ∃ k ∈ g :: gs, h.place = k.place ∧ h.extra = k.extra := by
  induction gs with
  | nil => exact ⟨g, List.mem_cons_self, List.mem_singleton.1 hh ▸ ⟨rfl, rfl⟩⟩
  | cons k rest ih =>
    rw [insert] at hh
    split at hh
    · exact ⟨h, hh, rfl, rfl⟩
    · split at hh
      · rcases List.mem_cons.1 hh with rfl | hh
        · exact ⟨h, List.mem_cons_of_mem _ List.mem_cons_self, rfl, rfl⟩
        · obtain ⟨k', hk', hat⟩ := ih hh
          refine ⟨k', ?_, hat⟩
          rcases List.mem_cons.1 hk' with rfl | hk'
          · exact List.mem_cons_self
          · exact List.mem_cons_of_mem _ (List.mem_cons_of_mem _ hk')
      · rcases List.mem_cons.1 hh with rfl | hh
        · exact ⟨k, List.mem_cons_of_mem _ List.mem_cons_self, rfl, rfl⟩
        · exact ⟨h, List.mem_cons_of_mem _ (List.mem_cons_of_mem _ hh), rfl, rfl⟩

theorem Sorted.insert {gs : List Group} (hs : Sorted gs) (g : Group) : Sorted (g.insert gs) := by
  induction gs with
  | nil => exact List.pairwise_singleton _ _
  | cons k rest ih =>
    obtain ⟨hk, hrest⟩ := List.pairwise_cons.1 hs
    rw [Group.insert]
    split
    · rename_i hgk
      refine List.pairwise_cons.2 ⟨fun h hh => ?_, hs⟩
      rcases List.mem_cons.1 hh with rfl | hh
      · exact hgk
      · exact Group.precedes_trans hgk (hk h hh)
    · split
      · rename_i hkg
        refine List.pairwise_cons.2 ⟨fun h hh => ?_, ih hrest⟩
        obtain ⟨k', hk', hplace, hextra⟩ := Group.at_insert hh
        have hprec : k.precedes k' = true := (List.mem_cons.1 hk').elim (fun e => e ▸ hkg) (hk k')
        rw [Group.precedes_iff] at hprec ⊢
        rwa [hplace, hextra]
      · exact List.pairwise_cons.2 ⟨hk, hrest⟩

theorem Group.flatMap_insert_perm (g : Group) (gs : List Group) :
    ((g.insert gs).flatMap Group.members).Perm (gs.flatMap Group.members ++ g.members) := by
  induction gs with
  | nil => simp [insert]
  | cons k rest ih =>
    rw [insert]
    split
    · rw [List.flatMap_cons]
      exact List.perm_append_comm
    · split
      · rw [List.flatMap_cons, List.flatMap_cons, List.append_assoc]
        exact ih.append_left _
      · rw [List.flatMap_cons, List.flatMap_cons, List.append_assoc, List.append_assoc]
        exact List.perm_append_comm.append_left _

/-- The groups are sorted and hold every column once. -/
theorem groups_once {gs : List Group} (h : groups ls p = .ok gs) :
    Sorted gs ∧ (gs.flatMap Group.members).Perm p.graph.columns := by
  have main (xs : List (Nat × Column)) (gs₀ : List Group) (hs : Sorted gs₀)
      (h : xs.foldlM (intoGroups ls p) gs₀ = .ok gs) :
      Sorted gs ∧ (gs.flatMap Group.members).Perm (gs₀.flatMap Group.members ++ xs) := by
    induction xs generalizing gs₀ with
    | nil =>
      obtain rfl := Except.ok.inj h
      exact ⟨hs, by rw [List.append_nil]⟩
    | cons x xs ih =>
      rw [List.foldlM_cons] at h
      obtain ⟨gs₁, hstep, h⟩ := Checked.bind_eq_ok.1 h
      obtain ⟨⟨place, loader⟩, -, hstep⟩ := Checked.bind_eq_ok.1 hstep
      obtain rfl := Except.ok.inj hstep
      obtain ⟨hsorted, hperm⟩ := ih _ (hs.insert _) h
      refine ⟨hsorted, hperm.trans ?_⟩
      rw [List.append_cons]
      exact (Group.flatMap_insert_perm ..).append_right xs
  exact main _ [] List.Pairwise.nil h

/-- No column is read twice at one depth exactly if no group has a column twice. -/
theorem readsOnce_iff {gs : List Group} (h : groups ls p = .ok gs) (hproper : ∀ g ∈ gs, g.Proper ls p)
    (hmem : ∀ x, (∃ g ∈ gs, x ∈ g.members) ↔ x ∈ p.graph.columns) :
    p.ReadsOnce ↔ ∀ g ∈ gs, Distinct g.members := by
  obtain ⟨hsorted, hperm⟩ := groups_once h
  constructor
  · intro honce g hg
    have hnodup : g.members.Nodup :=
      (List.nodup_flatMap.1 (hperm.nodup_iff.2 (TermGraph.nodup_columns _))).1 g hg
    refine List.pairwise_map.2 (hnodup.pairwise_of_forall_ne fun x hx y hy hne => Bool.eq_false_iff.2 fun hxy => ?_)
    have hcolumns := (hproper g hg).columns
    have hnode := honce x (hcolumns x hx) y (hcolumns y hy) hxy
      (((hproper g hg).extra x hx).trans ((hproper g hg).extra y hy).symm)
    exact hne (Prod.ext hnode (TermGraph.column_unique (hcolumns x hx) (hnode ▸ hcolumns y hy)))
  · intro hdistinct x hx y hy hxy hextra
    obtain ⟨g, hg, hxg⟩ := (hmem x).2 hx
    obtain ⟨k, hk, hyk⟩ := (hmem y).2 hy
    have hplace : g.place = k.place := by
      have hdataset : x.2.dataset = y.2.dataset := (Prod.mk.inj (Column.same_iff.1 hxy)).1
      have hserving := (hproper g hg).serving x hxg
      rw [Loaders.serving?, hdataset, ← Loaders.serving?, (hproper k hk).serving y hyk] at hserving
      exact (Prod.mk.inj (Option.some.inj hserving)).1.symm
    obtain rfl := hsorted.unique hg hk hplace
      (((hproper g hg).extra x hxg).symm.trans (hextra.trans ((hproper k hk).extra y hyk)))
    by_contra hne
    have hsymm : Std.Symm fun a b : Nat × Column => (a.2 == b.2) = false :=
      ⟨fun a b h => (Column.beq_comm b.2 a.2).trans h⟩
    have := (List.pairwise_map.1 (hdistinct g hg)).forall hxg hyk fun e => hne (congrArg Prod.fst e)
    rw [hxy] at this
    cases this

/-! ## Loading a group -/

theorem loadAll_of_ok {l : Loader} {r : Request} (h : l.load r = .ok m) : (loadAll l r).Is (.ok m) := by
  have hcall := is_call l r
  rw [h] at hcall
  by_cases hone : ∃ column, r.columns = [column]
  · obtain ⟨column, hcolumn⟩ := hone
    have hall : loadAll l r = loadOne l r column := by
      unfold loadAll
      rw [hcolumn]
    have hsame : { r with columns := [column] } = r := by rw [← hcolumn]
    rw [hall, show loadOne l r column = call l { r with columns := [column] } >>= fun answer =>
      liftM (orMissing { r with columns := [column] } column answer) from rfl, hsame]
    exact hcall.bind (is_lift (.ok m))
  · rw [loadAll_eq hone]
    exact hcall.bind (is_pure m)

theorem exists_foldlM_take {shape : Nat × Nat} (hd : Distinct members) (hm : ∀ x ∈ members, ∃ h : History,
      m.get? x.2 = some h ∧ h.shape = shape ∧ h.dtype = x.2.dtype ∧ (h.missing == x.2.missing) = true) :
    ∃ state, members.foldlM (take shape) (ws, m) = .ok state := by
  induction members generalizing ws m with
  | nil => exact ⟨_, rfl⟩
  | cons x members ih =>
    obtain ⟨h, hget, hfits⟩ := hm x List.mem_cons_self
    obtain ⟨state, hstate⟩ := @ih (ws.put x.1 h) (m.erase x.2) (List.pairwise_cons.1 hd).2 fun y hy => by
      rw [get?_erase_of_distinct hd hy]
      exact hm y (List.mem_cons_of_mem _ hy)
    refine ⟨state, ?_⟩
    rw [List.foldlM_cons, show take shape (ws, m) x = _ from take_eq_ok.2 ⟨h, hget, check_eq_ok.2 hfits, rfl⟩]
    exact hstate

/-- A group without repetitions is loaded if its request is met. -/
theorem exists_loadGroup_ok (ws : Workspace) {g : Group} (hd : Distinct g.members)
    (hm : g.loader.Meets (requestOf c g)) : ∃ ws', (loadGroup c ws g).Is (.ok ws') := by
  obtain ⟨m, hm, hget⟩ := hm
  obtain ⟨state, hstate⟩ := @exists_foldlM_take ws m _ (requestOf c g).shape hd fun x hx =>
    hget x.2 (List.mem_map_of_mem hx)
  have htake := is_lift (g.members.foldlM (take (requestOf c g).shape) (ws, m))
  rw [hstate] at htake
  refine ⟨state.1, ?_⟩
  rw [loadGroup_eq]
  exact (loadAll_of_ok hm).bind (by rw [hstate]; exact htake.bind (is_pure _))

/-- Groups are loaded exactly if none of them has a column twice. -/
theorem foldlM_loadGroup_iff {gs : List Group}
    (hm : ∀ g ∈ gs, Distinct g.members → g.loader.Meets (requestOf c g)) (ws : Workspace) :
    (∃ ws', (gs.foldlM (loadGroup c) ws).Is (.ok ws')) ↔ ∀ g ∈ gs, Distinct g.members := by
  induction gs generalizing ws with
  | nil => exact ⟨fun _ _ hg => absurd hg List.not_mem_nil, fun _ => ⟨ws, is_pure ws⟩⟩
  | cons g gs ih =>
    have ih := ih fun h hh => hm h (List.mem_cons_of_mem _ hh)
    rw [List.foldlM_cons, List.forall_mem_cons]
    by_cases hd : Distinct g.members
    · obtain ⟨ws₁, hone⟩ := exists_loadGroup_ok ws hd (hm g List.mem_cons_self hd)
      rw [← ih ws₁]
      refine ⟨fun ⟨ws', h⟩ => ⟨hd, ?_⟩, fun ⟨_, ws', h⟩ => ⟨ws', hone.bind h⟩⟩
      obtain ⟨r, hr⟩ := exists_foldlM (fun ws g => exists_loadGroup c ws g) gs ws₁
      exact ⟨ws', (hone.bind hr).unique h ▸ hr⟩
    · obtain ⟨e, he⟩ := loadGroup_of_repeated c ws hd
      exact ⟨fun ⟨_, h⟩ => (nomatch he.bind_error.unique h), fun h => absurd h.1 hd⟩

/-- Where loaders conform, loading all columns of a chunk succeeds exactly if none of them is
read twice at one depth. -/
theorem loadColumns_iff (hdates : c.dates.Pairwise (· < ·)) (hsids : c.sids.Nodup)
    (hserve : ∀ x ∈ p.graph.columns, (ls.serving? x.2).isSome = true) (hl : ls.Conform p.graph.Asks)
    (ws : Workspace) : (∃ ws', (loadColumns ls p c ws).Is (.ok ws')) ↔ p.ReadsOnce := by
  obtain ⟨gs, hgs, hproper, hmem⟩ := groups_spec hserve
  have hload : loadColumns ls p c ws = liftM (groups ls p) >>= fun gs => gs.foldlM (loadGroup c) ws := rfl
  have hgroups : (liftM (groups ls p) : Run _).Is (.ok gs) := hgs ▸ is_lift _
  have hmeets (g : Group) (hg : g ∈ gs) (hd : Distinct g.members) : g.loader.Meets (requestOf c g) := by
    refine hl g.place g.loader _ (requestOf_regular hdates hsids (hproper g hg).nonempty hd) fun column hcolumn => ?_
    obtain ⟨x, hx, rfl⟩ := List.mem_map.1 hcolumn
    exact ⟨⟨x.1, (hproper g hg).columns x hx⟩, (hproper g hg).serving x hx⟩
  rw [readsOnce_iff hgs hproper hmem, ← foldlM_loadGroup_iff hmeets ws, hload]
  refine exists_congr fun ws' => ⟨fun h => ?_, fun h => hgroups.bind h⟩
  obtain ⟨r, hr⟩ := exists_foldlM (fun ws g => exists_loadGroup c ws g) gs ws
  exact (hgroups.bind hr).unique h ▸ hr

/-! ## What loading fills in -/

theorem fills_take {shape : Nat × Nat} {state : Workspace × Loaded}
    (h : members.foldlM (take shape) (ws, m) = .ok state) :
    Workspace.Fills (fun k => ∃ x ∈ members, x.1 = k) ws state.1 := by
  induction members generalizing ws m with
  | nil =>
    rw [← Except.ok.inj h]
    exact (Workspace.Fills.refl ws).congr fun k => by simp
  | cons x members ih =>
    rw [List.foldlM_cons] at h
    obtain ⟨⟨ws₁, m₁⟩, hx, h⟩ := Checked.bind_eq_ok.1 h
    obtain ⟨history, -, -, hx⟩ := take_eq_ok.1 hx
    obtain ⟨rfl, -⟩ := Prod.mk.inj hx
    exact ((Workspace.Fills.put ws x.1 history).trans (ih h)).congr fun k => by
      rw [List.exists_mem_cons_iff]

theorem fills_loadGroup {g : Group} {calls : List Call} (h : ((loadGroup c ws g).run.run calls).1 = .ok ws') :
    Workspace.Fills (fun k => ∃ x ∈ g.members, x.1 = k) ws ws' := by
  rw [loadGroup_eq] at h
  obtain ⟨r, hr⟩ := exists_loadAll g.loader (requestOf c g)
  obtain ⟨m, calls, -, h⟩ := hr.of_bind h
  obtain ⟨state, calls, hstate, h⟩ := (is_lift _).of_bind h
  rw [← Except.ok.inj h]
  exact fills_take hstate

theorem fills_loadGroups {gs : List Group} {calls : List Call}
    (h : ((gs.foldlM (loadGroup c) ws).run.run calls).1 = .ok ws') :
    Workspace.Fills (fun k => ∃ g ∈ gs, ∃ x ∈ g.members, x.1 = k) ws ws' := by
  induction gs generalizing ws calls with
  | nil =>
    rw [← Except.ok.inj h]
    exact (Workspace.Fills.refl ws).congr fun k => by simp
  | cons g gs ih =>
    rw [List.foldlM_cons] at h
    obtain ⟨r, hr⟩ := exists_loadGroup c ws g
    have hval := hr calls
    obtain ⟨ws₁, calls₁, rfl, h⟩ := hr.of_bind h
    exact ((fills_loadGroup hval).trans (ih h)).congr fun k => by rw [List.exists_mem_cons_iff]

/-- What is loaded fills in the nodes of all columns, and no others. -/
theorem fills_loadColumns (hserve : ∀ x ∈ p.graph.columns, (ls.serving? x.2).isSome = true) {calls : List Call}
    (h : ((loadColumns ls p c ws).run.run calls).1 = .ok ws') :
    Workspace.Fills (fun k => ∃ column, (k, column) ∈ p.graph.columns) ws ws' := by
  obtain ⟨gs, hgs, -, hmem⟩ := groups_spec hserve
  obtain ⟨gs', calls, hgs', h⟩ := (is_lift _).of_bind h
  obtain rfl : gs = gs' := Except.ok.inj (hgs.symm.trans hgs')
  refine (fills_loadGroups h).congr fun k => ⟨?_, fun ⟨column, hx⟩ => ?_⟩
  · rintro ⟨g, hg, x, hx, rfl⟩
    exact ⟨x.2, (hmem x).1 ⟨g, hg, hx⟩⟩
  · obtain ⟨g, hg, hx⟩ := (hmem (k, column)).2 hx
    exact ⟨g, hg, _, hx, rfl⟩

end Run

/-- The existence of assets is the one node that a chunk is told of before it loads its columns. -/
theorem Engine.fills_seed {p : Plan} {c : Chunk} : ∃ ws, seed p c = .ok ws ∧
    Workspace.Fills (p.graph.index? Term.assetExists = some ·) (.empty p.size) ws := by
  unfold seed
  cases hn : p.graph.index? Term.assetExists with
  | none => exact ⟨_, rfl, (Workspace.Fills.refl _).congr fun k => ⟨False.elim, nofun⟩⟩
  | some node => exact ⟨_, rfl, (Workspace.Fills.put _ node _).congr fun k => Option.some_inj.symm⟩

end AsOf
