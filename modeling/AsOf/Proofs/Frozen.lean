import AsOf.Proofs.Direct
import AsOf.Proofs.OneSession
import AsOf.Proofs.Run.Shape
import AsOf.Proofs.Schedules

/-!
# What windows see of computed inputs

The history of a column knows its adjustments, so that a window sees each of its rows as known
on the session of the reader. The history of a computed node has none: its rows stay what they
were when they were computed, each on its own session, also where a window over them counts as
safe.

* `TermGraph.strand_kept`: a node of one session comes from what is known of it on that session.
* `TermGraph.strand_over_latest`: kernels over columns and over their newest rows.
* `Engine.frozen_in_windows`: what nodes contribute to windows in a chunk of a run.
-/
namespace AsOf

/-! ## What is shown alike -/

/-- Some assets see the same of rows that are the same for them. -/
theorem Sight.ofRows_congr {windowed : Bool} {dtype : Dtype} {assets : List Sid} {rows rows' : List (Sid → Scalar)}
    (h : List.Forall₂ (fun x y => ∀ sid ∈ assets, x sid = y sid) rows rows') :
    ofRows windowed dtype assets rows = ofRows windowed dtype assets rows' := by
  rw [ofRows, ofRows]
  congr 2
  refine Grid.ext_get? (by rw [Grid.shape_ofFn, Grid.shape_ofFn, h.length_eq]) fun i j => ?_
  rw [Grid.get?_ofFn, Grid.get?_ofFn]
  by_cases hij : i < rows.length ∧ j < assets.length
  · have hi' : i < rows'.length := h.length_eq ▸ hij.1
    rw [dif_pos hij, dif_pos ⟨hi', hij.2⟩]
    exact congrArg some (h.get hij.1 hi' _ (List.getElem_mem hij.2))
  · rw [dif_neg hij, dif_neg (h.length_eq ▸ hij)]

namespace Strand

variable {a b : Strand} {live : List Sid} {r : Nat} {window : UInt64}

/-- What a strand has for some assets on a session, another one has too. -/
structure KeptBy (live : List Sid) (r : Nat) (a b : Strand) : Prop where
  dtype : a.dtype = b.dtype
  row? : ∀ x, a.row? r r = some x → ∃ y, b.row? r r = some y ∧ ∀ sid ∈ live, x sid = y sid

/-- What a strand shows to a reader, another one shows alike to some assets. -/
def ShownBy (live : List Sid) (window : UInt64) (r : Nat) (a b : Strand) : Prop :=
  ∀ s, a.shown? window r = some s → ∃ s', b.shown? window r = some s' ∧
    ∀ assets : List Sid, (∀ sid ∈ assets, sid ∈ live) → s.sight assets = s'.sight assets

theorem sessionsIn_one (r : Nat) : sessionsIn 1 r = [r] := by
  have h : (1 : UInt64).toNat = 1 := rfl
  rw [sessionsIn, h, if_pos (Nat.succ_le_succ (Nat.zero_le r)), Nat.add_sub_cancel]
  rfl

/-- A window is shown alike if its sessions are there for the same assets. -/
theorem shownBy_of_rows (hw : window ≠ 0) (hd : a.dtype = b.dtype) (h : ∀ q ∈ sessionsIn window r, ∀ x,
    a.row? q r = some x → ∃ y, b.row? q r = some y ∧ ∀ sid ∈ live, x sid = y sid) : a.ShownBy live window r b := by
  intro s hs
  rw [shown?, if_neg hw] at hs ⊢
  obtain ⟨rows, hrows, rfl⟩ := Option.map_eq_some_iff.1 hs
  have hsessions : List.Forall₂ (fun q q' => q' = q ∧ q ∈ sessionsIn window r) (sessionsIn window r)
      (sessionsIn window r) := List.forall₂_same.2 fun q hq => ⟨rfl, hq⟩
  obtain ⟨rows', hrows', hall⟩ := Checked.exists_mapM_alike (g := fun q => b.row? q r)
    (S := fun x y : Sid → Scalar => ∀ sid ∈ live, x sid = y sid) hsessions hrows
    fun q q' hq => hq.1 ▸ h q hq.2
  refine ⟨_, by rw [hrows', Option.map_some], fun assets hsub => ?_⟩
  rw [Shown.sight, Shown.sight, hd]
  exact Sight.ofRows_congr (hall.imp fun x y hxy sid hsid => hxy sid (hsub sid hsid))

/-- What is kept is shown alike to a reader of one session. -/
theorem KeptBy.shownBy (h : a.KeptBy live r b) (hw : window ≤ 1) : a.ShownBy live window r b := by
  by_cases h0 : window = 0
  · intro s hs
    rw [shown?, if_pos h0] at hs ⊢
    obtain ⟨x, hx, rfl⟩ := Option.map_eq_some_iff.1 hs
    obtain ⟨y, hy, hxy⟩ := h.row? x hx
    refine ⟨_, by rw [hy, Option.map_some], fun assets hsub => ?_⟩
    rw [Shown.sight, Shown.sight, h.dtype]
    exact Sight.ofRows_congr (.cons (fun sid hsid => hxy sid (hsub sid hsid)) .nil)
  · obtain rfl : window = 1 := by
      have hpos : window.toNat ≠ 0 := fun e => h0 (UInt64.toNat_inj.1 e)
      exact UInt64.toNat_inj.1 (Nat.le_antisymm (UInt64.le_iff_toNat_le.1 hw) (Nat.pos_of_ne_zero hpos))
    refine shownBy_of_rows h0 h.dtype fun q hq => ?_
    rw [sessionsIn_one, List.mem_singleton] at hq
    exact hq ▸ h.row?

theorem KeptBy.passes? (h : a.KeptBy live r b) {p : Sid → Bool} (hp : a.passes? r = some p) :
    ∃ p', b.passes? r = some p' ∧ ∀ sid ∈ live, p sid = p' sid := by
  rw [Strand.passes?] at hp ⊢
  rw [← h.dtype]
  by_cases hd : a.dtype = .bool
  · rw [if_pos hd] at hp ⊢
    obtain ⟨x, hx, rfl⟩ := Option.map_eq_some_iff.1 hp
    obtain ⟨y, hy, hxy⟩ := h.row? x hx
    exact ⟨_, by rw [hy, Option.map_some], fun sid hsid =>
      congrArg (fun v => (Scalar.asBool? v).getD false) (hxy sid hsid)⟩
  · rw [if_neg hd] at hp
    cases hp

end Strand

namespace Term

variable {t t' : Term} {w w' : World} {mask mask' : Strand} {inputs inputs' : List Strand} {r : Nat}
  {row : Sid → Scalar}

/-- Terms that make the same of what they see have the same row where it is shown alike. -/
theorem rowAt?_alike (hrow : t.row? = t'.row?) (hmissing : t.missing = t'.missing) (hwindow : t.window = t'.window)
    (hdate : w.date r = w'.date r) (hlive : w.live r = w'.live r) (hm : mask.KeptBy (w.live r) r mask')
    (hi : List.Forall₂ (Strand.ShownBy (w.live r) t.window r) inputs inputs')
    (h : t.rowAt? w [mask] inputs r = some row) : t'.rowAt? w' [mask'] inputs' r = some row := by
  obtain ⟨passes, shown, values, hp, hshown, hvalues, rfl⟩ := rowAt?_eq_some.1 h
  obtain ⟨passes', hp', hpp⟩ := hm.passes? hp
  have hassets : (w'.live r).filter passes' = (w.live r).filter passes := by
    rw [← hlive]
    exact List.filter_congr fun sid hsid => (hpp sid hsid).symm
  obtain ⟨shown', hshown', hall⟩ := Checked.exists_mapM_alike (g := fun s : Strand => s.shown? t.window r)
    (S := fun s s' : Shown => ∀ assets : List Sid, (∀ sid ∈ assets, sid ∈ w.live r) → s.sight assets = s'.sight assets)
    hi hshown fun a b hab => hab
  have hsights : shown.map (Shown.sight ((w.live r).filter passes)) =
      shown'.map (Shown.sight ((w.live r).filter passes)) :=
    Checked.map_eq_map hall fun s s' hss => hss _ fun sid hsid => (List.mem_filter.1 hsid).1
  refine rowAt?_eq_some.2 ⟨passes', shown', values, hp', hwindow ▸ hshown', ?_, ?_⟩
  · rw [hassets, ← hsights, ← hrow, ← hdate]
    exact hvalues
  · rw [hassets, hmissing]

/-- The newest row of an input is its row on the session. -/
theorem rowAt?_latest (hk : t.kind = .latest) (hw : t.window = 1) {s : Strand}
    (h : t.rowAt? w [mask] [s] r = some row) : ∃ passes x, mask.passes? r = some passes ∧ s.row? r r = some x ∧
      ∀ sid ∈ w.live r, passes sid = true → row sid = x sid := by
  obtain ⟨passes, shown, values, hp, hshown, hvalues, rfl⟩ := rowAt?_eq_some.1 h
  obtain ⟨sh, rest, hsh, hrest, rfl⟩ := List.forall₂_cons_left_iff.1 (Checked.mapM_eq_some.1 hshown)
  obtain rfl := List.forall₂_nil_left_iff.1 hrest
  rw [hw, Strand.shown?, if_neg (by decide), Strand.sessionsIn_one] at hsh
  obtain ⟨rows, hrows, rfl⟩ := Option.map_eq_some_iff.1 hsh
  obtain ⟨x, rest, hx, hrest, rfl⟩ := List.forall₂_cons_left_iff.1 (Checked.mapM_eq_some.1 hrows)
  obtain rfl := List.forall₂_nil_left_iff.1 hrest
  have hcells (assets : List Sid) :
      t.values? (w.date r) assets ([.window s.dtype [x]].map (Shown.sight assets)) = some (s.dtype, assets.map x) := by
    rw [values?, hk]
    exact congrArg (fun cells => some (s.dtype, cells)) (row_viewOver s.dtype [x] assets Nat.one_pos)
  refine ⟨passes, x, hp, hx, fun sid hlive hpass => ?_⟩
  have hvalues := (row?_eq_some.1 hvalues).2
  rw [hcells] at hvalues
  obtain rfl := (Prod.mk.inj (Option.some.inj hvalues)).2
  simp only [lookup_zip_map x (List.mem_filter.2 ⟨hlive, hpass⟩), Option.getD_some]

/-- Kinds that read windows make the same of inputs with the same missing values. -/
theorem row?_of_windows {head : Head} {xs ys : List Term} {mask : Option Term}
    (hk : head.kind.minimumWindow?.isSome = true) (h : xs.map missing = ys.map missing) :
    (mk head xs mask).row? = (mk head ys mask).row? := by
  have hlength : xs.length = ys.length := by rw [← List.length_map missing, h, List.length_map]
  have hmissing (i : Nat) : (mk head xs mask).missingOf i = (mk head ys mask).missingOf i := by
    show ((xs[i]?).map missing).getD _ = ((ys[i]?).map missing).getD _
    rw [← List.getElem?_map, h, List.getElem?_map]
  have hnumbers (vs : List View) : (mk head xs mask).numbers? vs = (mk head ys mask).numbers? vs := by
    simp only [numbers?, hmissing]
  have hvalues (date : Date) (sids : List Sid) (seen : List Sight) :
      (mk head xs mask).values? date sids seen = (mk head ys mask).values? date sids seen := by
    have hkind (ts : List Term) : (mk head ts mask).kind = head.kind := rfl
    rw [values?, values?, hkind, hkind]
    cases hk' : head.kind with
    | window k => simp only [hnumbers]; rfl
    | latest => rfl
    | custom k => rfl
    | _ => simp only [hk', Kind.minimumWindow?, Option.isSome_none, Bool.false_eq_true] at hk
  funext date sids seen
  have hinputs (ts : List Term) : (mk head ts mask).inputs = ts := rfl
  rw [row?, row?, hvalues, hinputs, hinputs, hlength]
  rfl

/-- What is loaded cannot be computed. -/
theorem rowAt?_of_isLoadable (h : t.isLoadable = true) (masks inputs : List Strand) :
    t.rowAt? w masks inputs r = none := by
  have hrow (date : Date) (sids : List Sid) (seen : List Sight) : t.row? date sids seen = none := by
    rw [Option.eq_none_iff_forall_ne_some]
    intro values hvalues
    have := (row?_eq_some.1 hvalues).2
    rw [isLoadable] at h
    rw [values?] at this
    cases hk : t.kind <;> rw [hk] at h this <;> first | cases this | cases h
  rw [Option.eq_none_iff_forall_ne_some]
  intro row hx
  simp only [rowAt?, hrow, Option.bind_eq_bind, Option.bind_eq_some_iff] at hx
  obtain ⟨_, -, _, -, _, hnone, -⟩ := hx
  cases hnone

end Term

/-! ## Nodes of one session -/

namespace TermGraph

variable {outputs : Named Term} {screen : Option Term} {g : TermGraph} {node : Nat} {t : Term} {w : World} {r : Nat}
  {pipeline : Pipeline}

/-- A node is made of a column: it is the column's, or it reads a node that is made of it. -/
inductive MadeOf (g : TermGraph) (column : Nat) : Nat → Prop
  | self {c : Column} (h : (column, c) ∈ g.columns) : g.MadeOf column column
  | edge {node : Nat} {e : Edge} (he : e ∈ g.edgesOf node) (h : g.MadeOf column e.node) : g.MadeOf column node

/-- What holds something that a term reads is read by its node. -/
theorem exists_edge (hg : of? outputs screen = .ok g) (ht : g.terms[node]? = some t) {dep : Term}
    (hd : dep ∈ t.dependencies) {k : Nat} (hk : g.HoldsBefore node dep k) : ∃ e ∈ g.edgesOf node, e.node = k := by
  obtain ⟨reading, hr, rfl⟩ := List.mem_map.1 hd
  obtain ⟨e, he, hstands⟩ := Checked.exists_right (reads hg ht) hr
  obtain ⟨t₁, ht₁, hs₁⟩ := hstands.term
  obtain ⟨t₂, ht₂, hs₂⟩ := hk.term
  exact ⟨e, he, node_unique hg ht₁ ht₂ (Term.same_trans _ _ _ hs₁ ((Term.same_comm _ _).trans hs₂))⟩

/-- What is of one session is the same in worlds that agree on the session about the columns that it
is made of. -/
theorem strand_kept (hg : of? outputs screen = .ok g) (ht : g.terms[node]? = some t) (hone : t.OneSession) (w' : World)
    (hdate : w.date r = w'.date r) (hlive : w.live r = w'.live r)
    (hknown : ∀ column, g.MadeOf column node → ∀ sid ∈ w.live r, w.known column r r sid = w'.known column r r sid) :
    (g.strand w node).KeptBy (w.live r) r (g.strand w' node) ∧ (g.isGiven node t = false →
      ∀ x, (g.strand w node).row? r r = some x → (g.strand w' node).row? r r = some x) := by
  -- on the nodes in order: what a node reads stands before it
  induction node using Nat.strong_induction_on generalizing t with
  | _ node ih =>
    have hdtype : (g.strand w node).dtype = (g.strand w' node).dtype := by rw [dtype_strand, dtype_strand]
    cases hgiven : g.isGiven node t with
    | true =>
      refine ⟨⟨hdtype, fun x hx => ?_⟩, nofun⟩
      rcases (isGiven_iff ht).1 hgiven with hn | ⟨c, hc⟩
      · rw [strand_assetExists ht hn] at hx ⊢
        obtain rfl := Option.some.inj hx
        exact ⟨_, rfl, fun sid _ => by rw [hlive]⟩
      · obtain ⟨t', ht', hcol⟩ := mem_columns.1 hc
        rw [strand_column ht' (index?_ne_of_column hc) hcol] at hx ⊢
        obtain rfl := Option.some.inj hx
        exact ⟨_, rfl, hknown node (.self hc)⟩
    | false =>
      -- a column agrees for the living only, but a computed row reads nothing of the others
      suffices hrow : ∀ x, (g.strand w node).row? r r = some x → (g.strand w' node).row? r r = some x from
        ⟨⟨hdtype, fun x hx => ⟨x, hrow x hx, fun _ _ => rfl⟩⟩, fun _ => hrow⟩
      intro x hx
      by_cases hl : t.isLoadable = true
      · rw [strand_computed ht hgiven (edges_lt hg node)] at hx
        exact nomatch (Term.rowAt?_of_isLoadable hl _ _).symm.trans hx
      have hl := Bool.eq_false_iff.2 hl
      obtain ⟨mask, inputs, hreads⟩ := exists_reads hg ht hl
      have hkept {dep : Term} (hd : dep ∈ t.dependencies) {k : Nat} (hk : g.HoldsBefore node dep k) :
          (g.strand w k).KeptBy (w.live r) r (g.strand w' k) := by
        obtain ⟨t', ht', hsame⟩ := hk.term
        obtain ⟨e, he, rfl⟩ := exists_edge hg ht hd hk
        exact (ih e.node hk.lt ht' ((hone.dependency hd).of_same hsame) fun column hc => hknown column (.edge he hc)).1
      rw [hreads.strand_eq] at hx ⊢
      refine Term.rowAt?_alike rfl rfl rfl hdate hlive
        (hkept ((Term.mem_dependencies hl).2 (.inr rfl)) hreads.holds_mask) ?_ hx
      rw [List.forall₂_map_left_iff, List.forall₂_map_right_iff, List.forall₂_same]
      intro k hk
      obtain ⟨dep, hd, hholds⟩ := Checked.exists_left hreads.holds_inputs hk
      exact (hkept ((Term.mem_dependencies hl).2 (.inl hd)) hholds).shownBy (hone.window_le hl)

/-! ## A kernel over columns and over their newest rows -/

theorem HoldsBefore.of_same {dep dep' : Term} {k : Nat} (h : g.HoldsBefore node dep k) (hs : dep.same dep' = true) :
    g.HoldsBefore node dep' k := by
  obtain ⟨t, ht, hsame⟩ := h.term
  exact ⟨h.lt, t, ht, Term.same_trans _ _ _ hsame hs⟩

/-- What holds a column has a column of its type. -/
theorem strand_of_column (hb : pipeline.Built) (hg : pipeline.graph = .ok g) {k : Nat} {c : Column}
    (hk : g.HoldsBefore node (.ofColumn c) k) : g.index? (.ofColumn c) = some k ∧
      ∀ w, g.strand w k = ⟨c.dtype, fun r p => some (w.known k r p)⟩ := by
  obtain ⟨t, ht, hs⟩ := hk.term
  have hkind : t.kind.same (.column c) = true := (Head.of_same (Term.head_of_same hs)).1
  obtain ⟨c', hc'⟩ : ∃ c', t.kind = .column c' := by
    cases h : t.kind <;> rw [h] at hkind <;> first | exact ⟨_, rfl⟩ | cases hkind
  have hcol : t.column? = some c' := by rw [Term.column?, hc']
  have hd : c'.dtype = c.dtype := ((hb.of_graph hg ht).typed.column c' hcol).trans (Term.dtype_of_same hs)
  refine ⟨(g.index?_of_same hs).symm.trans (index?_of_getElem? (Pipeline.graph_eq_ok hg) ht), fun w => ?_⟩
  rw [strand_column ht (index?_ne_of_column (mem_columns.2 ⟨t, ht, hcol⟩)) hcol, hd]

/-- What holds the newest row of a column has, of what is alive, the column as known on the session. -/
theorem strand_of_latest (hb : pipeline.Built) (hg : pipeline.graph = .ok g) {k l : Nat} {c : Column}
    (hk : g.index? (.ofColumn c) = some k) (hl : g.HoldsBefore node (.latestOfColumn c) l) :
    (g.strand w l).dtype = c.dtype ∧ ∀ q s x, (g.strand w l).row? q s = some x →
      ∀ sid ∈ w.live q, x sid = w.known k q q sid := by
  have hof := Pipeline.graph_eq_ok hg
  obtain ⟨t, ht, hs⟩ := hl.term
  have hkind : t.kind = .latest := by
    have hkind : t.kind.same .latest = true := (Head.of_same (Term.head_of_same hs)).1
    cases h : t.kind <;> rw [h] at hkind <;> first | rfl | cases hkind
  have hload : t.isLoadable = false := by
    rw [Term.isLoadable, hkind]
    rfl
  obtain ⟨mask, inputs, hreads⟩ := exists_reads hof ht hload
  obtain ⟨u, us, hu, hus, hinputs⟩ := List.forall₂_cons_right_iff.1 (Term.inputs_of_same hs)
  obtain rfl := List.forall₂_nil_right_iff.1 hus
  obtain ⟨k', ks, hk', hks, rfl⟩ := List.forall₂_cons_left_iff.1 (hinputs ▸ hreads.holds_inputs)
  obtain rfl := List.forall₂_nil_left_iff.1 hks
  obtain ⟨hplace, hcolumn⟩ := strand_of_column hb hg (hk'.of_same hu)
  obtain rfl := Option.some.inj (hplace.symm.trans hk)
  have hmask : g.index? Term.assetExists = some mask := by
    obtain ⟨m, hm, hms⟩ := (hreads.holds_mask.of_same (Term.getD_mask_of_same hs)).term
    exact (g.index?_of_same hms).symm.trans (index?_of_getElem? hof hm)
  rw [hreads.strand_eq]
  refine ⟨(hb.of_graph hg ht).typed.missing.trans (Term.dtype_of_same hs), fun q s x hx sid hsid => ?_⟩
  obtain ⟨passes, y, hp, hy, hall⟩ := Term.rowAt?_latest hkind (Term.window_of_same hs) hx
  rw [hcolumn] at hy
  obtain rfl := Option.some.inj hy
  refine hall sid hsid ?_
  obtain ⟨m, hm, -⟩ := hreads.holds_mask.term
  rw [strand_assetExists hm hmask] at hp
  obtain rfl := Option.some.inj hp
  exact List.contains_iff_mem.2 hsid

/-- Over sessions on which nothing was restated, a kernel makes of columns what it makes of their
newest rows. -/
theorem strand_over_latest (hb : pipeline.Built) (hg : pipeline.graph = .ok g) {head : Head}
    (hk : head.kind.minimumWindow?.isSome = true) (hw : head.window ≠ 0) {cs : List Column} {mask : Option Term}
    {n₁ n₂ : Nat} (ht₁ : g.terms[n₁]? = some (.mk head (cs.map .ofColumn) mask))
    (ht₂ : g.terms[n₂]? = some (.mk head (cs.map .latestOfColumn) mask))
    (hstands : ∀ c ∈ cs, ∀ node, g.index? (.ofColumn c) = some node → ∀ q ∈ Strand.sessionsIn head.window r,
      ∀ sid ∈ w.live r, sid ∈ w.live q ∧ w.known node q q sid = w.known node q r sid) {x : Sid → Scalar}
    (hx : (g.strand w n₂).row? r r = some x) : (g.strand w n₁).row? r r = some x := by
  have hof := Pipeline.graph_eq_ok hg
  have hload (inputs : List Term) : (Term.mk head inputs mask).isLoadable = false := by
    show head.kind.isLoadable = false
    cases h : head.kind <;> rw [h] at hk <;> first | rfl | cases hk
  obtain ⟨m₁, ks, hreads₁⟩ := exists_reads hof ht₁ (hload _)
  obtain ⟨m₂, ls, hreads₂⟩ := exists_reads hof ht₂ (hload _)
  obtain rfl : m₁ = m₂ := by
    obtain ⟨t, ht, hs⟩ := hreads₁.holds_mask.term
    obtain ⟨t', ht', hs'⟩ := hreads₂.holds_mask.term
    exact node_unique hof ht ht' (Term.same_trans _ _ _ hs ((Term.same_comm _ _).trans hs'))
  rw [hreads₂.strand_eq] at hx
  rw [hreads₁.strand_eq]
  have hmissing : (cs.map Term.latestOfColumn).map Term.missing = (cs.map Term.ofColumn).map Term.missing := by
    rw [List.map_map, List.map_map]
    rfl
  refine Term.rowAt?_alike (Term.row?_of_windows hk hmissing) rfl rfl rfl rfl ⟨rfl, fun x hx => ⟨x, hx, fun _ _ => rfl⟩⟩
    ?_ hx
  rw [List.forall₂_map_left_iff, List.forall₂_map_right_iff]
  refine Checked.forall₂_of_common (List.forall₂_map_left_iff.1 hreads₂.holds_inputs)
    (List.forall₂_map_left_iff.1 hreads₁.holds_inputs) fun c hc l k hl hk => ?_
  obtain ⟨hplace, hcolumn⟩ := strand_of_column hb hg hk
  obtain ⟨hdtype, hlatest⟩ := strand_of_latest (w := w) hb hg hplace hl
  refine Strand.shownBy_of_rows hw (by rw [hdtype, hcolumn]) fun q hq x hx => ?_
  rw [hcolumn]
  refine ⟨_, rfl, fun sid hsid => ?_⟩
  obtain ⟨hlive, hknown⟩ := hstands c hc k hplace q hq sid hsid
  rw [hlatest q r x hx sid hlive, hknown]

end TermGraph

/-! ## What nodes contribute -/

namespace World

/-- The world in which every session is as known on one of them. -/
def knownOn (w : World) (s : Nat) : World := { w with known := fun node r _ => w.known node r s }

/-- What is known of a column on a session, of some assets, is still known of it on another one. -/
def Stands (w : World) (column : Nat) (assets : List Sid) (r s : Nat) : Prop :=
  ∀ sid ∈ assets, w.known column r r sid = w.known column r s sid

end World

/-- For a row as seen from another one, a history has what a strand is on the session of the row. -/
def Chunk.Contributes (c : Chunk) (start : Nat) (extra : UInt64) (h : History) (i q : Nat) (s : Strand) : Prop :=
  ∃ x, s.row? (c.sessionOf start extra i) (c.sessionOf start extra i) = some x ∧
    ∀ (j : Nat) (sid : Sid), c.sids[j]? = some sid → h.cell? i q j = some (x sid)

namespace Plan

variable {p : Plan} {c : Chunk} {w : World} {start : Nat} {given : Workspace} {node : Nat} {h : History}
  {pipeline : Pipeline}

/-- Where what is given holds its strands, so does what any node denotes. -/
theorem Denotes.holds (hs : p.Scheduled c w start) (hgiven : p.Given c w start given) (hd : p.Denotes c given node h) :
    c.Holds start (p.extraOf node) (p.graph.strand w node) h := by
  induction hd with
  | given hg => exact hgiven.right _ _ hg
  | @computed node t h ws hg ht hall hdeps hh ih =>
    have hsupplied : p.Supplied c w start ws node := ⟨hs.covers, hs.deep, fun e he => by
      have hread := TermGraph.mem_readBy.2 ⟨e, he, rfl⟩
      obtain ⟨h', hh'⟩ := Option.isSome_iff_exists.1 (hall e.node hread)
      exact ⟨h', hh', ih e.node hread h' hh'⟩⟩
    have hcomputed : p.graph.isGiven node t = false := Bool.eq_false_iff.2 fun hgiv => by
      have := (hgiven.isSome_iff node t ht).2 hgiv
      rw [hg] at this
      cases this
    rcases computeNode_spec hs.sound ht hcomputed hsupplied (fun k => hs.decodes node t k ht) with
      ⟨-, h', hok, hholds⟩ | ⟨-, err, herr⟩
    · exact Except.ok.inj (hh.symm.trans hok) ▸ hholds
    · exact nomatch hh.symm.trans herr

/-- What is computed of one session contributes what it was on each session; a column, what it is
as known on the session of the reader. -/
theorem Denotes.contributes (hg : pipeline.graph = .ok p.graph) (hs : p.Scheduled c w start)
    (hgiven : p.Given c w start given) (hd : p.Denotes c given node h) {t : Term} (ht : p.graph.terms[node]? = some t)
    (hone : t.OneSession) {i q : Nat} (hiq : i ≤ q) (hq : q < c.rowsOf (p.extraOf node)) {s : Nat}
    (hcolumn : t.column?.isSome = true → s = c.sessionOf start (p.extraOf node) q)
    (hstands : t.column?.isSome = false → ∀ column, p.graph.MadeOf column node →
      w.Stands column (w.live (c.sessionOf start (p.extraOf node) i)) (c.sessionOf start (p.extraOf node) i) s) :
    c.Contributes start (p.extraOf node) h i q (p.graph.strand (w.knownOn s) node) := by
  have hof := Pipeline.graph_eq_ok hg
  obtain ⟨x, hx, hcells⟩ := (hd.holds hs hgiven).cell i q hiq hq
  refine ⟨x, ?_, hcells⟩
  by_cases hn : p.graph.index? Term.assetExists = some node
  · rw [TermGraph.strand_assetExists ht hn] at hx ⊢
    exact hx
  cases hcol : t.column? with
  | some col =>
    rw [TermGraph.strand_column ht hn hcol] at hx ⊢
    rw [hcolumn (by rw [hcol]; rfl)]
    exact hx
  | none =>
    have hcomputed : p.graph.isGiven node t = false := by
      rw [TermGraph.isGiven, hcol, Option.isSome_none, Bool.or_false]
      exact beq_false_of_ne hn
    rw [TermGraph.strand_computed ht hcomputed (hs.sound.lt node)] at hx
    refine (TermGraph.strand_kept (w := w) hof ht hone (w.knownOn s) rfl rfl (hstands (by rw [hcol]; rfl))).2
      hcomputed x ?_
    rw [TermGraph.strand_computed ht hcomputed (hs.sound.lt node)]
    exact hx

/-- Over sessions on which nothing was restated, a kernel over the newest rows of columns has the
values of the kernel over the columns. -/
theorem Denotes.cell?_over_latest (hb : pipeline.Built) (hg : pipeline.graph = .ok p.graph)
    (hs : p.Scheduled c w start) (hgiven : p.Given c w start given) {head : Head} {cs : List Column}
    {mask : Option Term} {n₁ n₂ : Nat} {h₁ h₂ : History} (hk : head.kind.minimumWindow?.isSome = true) (hw : head.window ≠ 0)
    (ht₁ : p.graph.terms[n₁]? = some (.mk head (cs.map .ofColumn) mask))
    (ht₂ : p.graph.terms[n₂]? = some (.mk head (cs.map .latestOfColumn) mask))
    (hd₁ : p.Denotes c given n₁ h₁) (hd₂ : p.Denotes c given n₂ h₂) {i₁ i₂ r : Nat}
    (hi₁ : i₁ < c.rowsOf (p.extraOf n₁)) (hi₂ : i₂ < c.rowsOf (p.extraOf n₂))
    (hr₁ : c.sessionOf start (p.extraOf n₁) i₁ = r) (hr₂ : c.sessionOf start (p.extraOf n₂) i₂ = r)
    (hstands : ∀ col ∈ cs, ∀ column, p.graph.index? (.ofColumn col) = some column →
      ∀ q ∈ Strand.sessionsIn head.window r, (∀ sid ∈ w.live r, sid ∈ w.live q) ∧ w.Stands column (w.live r) q r)
    {j : Nat} {sid : Sid} (hj : c.sids[j]? = some sid) : h₁.cell? i₁ i₁ j = h₂.cell? i₂ i₂ j := by
  obtain ⟨x₁, hx₁, hcells₁⟩ := (hd₁.holds hs hgiven).cell i₁ i₁ (Nat.le_refl _) hi₁
  obtain ⟨x₂, hx₂, hcells₂⟩ := (hd₂.holds hs hgiven).cell i₂ i₂ (Nat.le_refl _) hi₂
  rw [hr₁] at hx₁
  rw [hr₂] at hx₂
  have hx := TermGraph.strand_over_latest hb hg hk hw ht₁ ht₂ (fun col hc column hplace q hq sid hsid =>
    ⟨(hstands col hc column hplace q hq).1 sid hsid, (hstands col hc column hplace q hq).2 sid hsid⟩) hx₂
  obtain rfl := Option.some.inj (hx₁.symm.trans hx)
  rw [hcells₁ j sid hj, hcells₂ j sid hj]

end Plan

/-! ## What runs compute -/

namespace Engine

variable {e : Engine} {p : Plan} {pipeline : Pipeline} {alive : Date → Sid → Bool}
  {ledger? : List Date → Column → Option Ledger} {mayRefuse : Prop} {start stop : Date} {job : Job}
  {first last : Nat} {x : Nat × Nat}

/-- What is made of columns counts as safe to be read through windows. But in a chunk of a run,
only a column contributes to a window its row as known on the session of the reader; what is
computed contributes what it was on the session of the row. That is what it would be as known on
the session of the reader if nothing was restated in between, and then a kernel over newest rows
is the same as over the columns. -/
theorem frozen_in_windows (hb : pipeline.Built) (htold : e.Told pipeline alive ledger? mayRefuse)
    (hj : e.prepare pipeline start stop = .ok job)
    (hp : Plan.of? job.graph job.calendar.sessions.size first last = .ok p)
    (hfx : first ≤ x.1) (hx : x.1 ≤ x.2) (hxl : x.2 ≤ last) :
    let c := e.chunkOf p job.domain job.calendar.sessions (e.assetsFor p) x.1 x.2
    let w := chunkWorld p job.calendar.sessions (e.assetsFor p) alive ledger? x.1 x.2
    ∀ given : Workspace, (e.loaded p c).Is (.ok given) →
      (∀ (node : Nat) (t : Term) (h : History), p.graph.terms[node]? = some t → t.FromColumns →
        p.Denotes c given node h → t.windowSafe = true ∧
        ∀ i q r s : Nat, i ≤ q → q < c.rowsOf (p.extraOf node) →
          c.sessionOf (startOf p x.1) (p.extraOf node) i = r → c.sessionOf (startOf p x.1) (p.extraOf node) q = s →
          c.Contributes (startOf p x.1) (p.extraOf node) h i q
            (p.graph.strand (w.knownOn (if t.column?.isSome then s else r)) node) ∧
          ((∀ column, p.graph.MadeOf column node → w.Stands column (w.live r) r s) →
            c.Contributes (startOf p x.1) (p.extraOf node) h i q (p.graph.strand (w.knownOn s) node))) ∧
      ∀ (head : Head) (cs : List Column) (mask : Option Term) (n₁ n₂ : Nat) (h₁ h₂ : History),
        head.kind.minimumWindow?.isSome = true → head.window ≠ 0 →
        p.graph.terms[n₁]? = some (.mk head (cs.map .ofColumn) mask) →
        p.graph.terms[n₂]? = some (.mk head (cs.map .latestOfColumn) mask) →
        p.Denotes c given n₁ h₁ → p.Denotes c given n₂ h₂ → ∀ i₁ i₂ r : Nat, i₁ < c.rowsOf (p.extraOf n₁) →
          i₂ < c.rowsOf (p.extraOf n₂) → c.sessionOf (startOf p x.1) (p.extraOf n₁) i₁ = r →
          c.sessionOf (startOf p x.1) (p.extraOf n₂) i₂ = r →
          (∀ col ∈ cs, ∀ column, p.graph.index? (.ofColumn col) = some column →
            ∀ q ∈ Strand.sessionsIn head.window r,
              (∀ sid ∈ w.live r, sid ∈ w.live q) ∧ w.Stands column (w.live r) q r) →
          ∀ (j : Nat) (sid : Sid), c.sids[j]? = some sid → h₁.cell? i₁ i₁ j = h₂.cell? i₂ i₂ j := by
  intro c w given hloaded
  obtain ⟨-, -, -, hgraph, -⟩ := prepare_eq_ok.1 hj
  rw [← (Plan.sound_of (Pipeline.graph_eq_ok hgraph) hp).1] at hgraph
  have hset := htold.setting hj hp
  have hl : x.2 < job.calendar.sessions.size := Nat.lt_of_le_of_lt hxl (Plan.of?_spec hp).2.2.1
  have hs := hset.scheduled job.domain hfx hx hl
  have hgiven := hset.given job.domain hfx hx hl hloaded
  refine ⟨fun node t h ht hcolumns hd => ⟨hcolumns.steady.safe.whole, ?_⟩, ?_⟩
  · rintro i q r s hiq hq rfl rfl
    have hone := hcolumns.steady.oneSession
    refine ⟨hd.contributes hgraph hs hgiven ht hone hiq hq (fun hcol => if_pos hcol) fun hcol => ?_,
      fun hstands => hd.contributes hgraph hs hgiven ht hone hiq hq (fun _ => rfl) fun _ => hstands⟩
    rw [if_neg (Bool.eq_false_iff.1 hcol)]
    exact fun column _ sid _ => rfl
  · intro head cs mask n₁ n₂ h₁ h₂ hk hw ht₁ ht₂ hd₁ hd₂ i₁ i₂ r hi₁ hi₂ hr₁ hr₂ hstands j sid
    exact hd₁.cell?_over_latest hb hgraph hs hgiven hk hw ht₁ ht₂ hd₂ hi₁ hi₂ hr₁ hr₂ hstands

/-! Three numbers, of which the second is restated on the third day. -/

/-- An engine over the restated numbers. -/
def restatedEngine : Engine := rateEngine [⟨⟨1⟩, .overwrite (.int 6), ⟨1⟩, ⟨1⟩, ⟨2⟩⟩]

def restatedChunk : Chunk :=
  restatedEngine.chunkOf latestPlan (.market "M" threeDays) threeDays.sessions (restatedEngine.assetsFor latestPlan) 0 2

def restatedWorld : World :=
  chunkWorld latestPlan threeDays.sessions (restatedEngine.assetsFor latestPlan)
    (fun date sid => oneLife.isAlive sid date) (restatedEngine.loaders.told? [Tables.rates [⟨⟨1⟩, .overwrite (.int 6), ⟨1⟩, ⟨1⟩, ⟨2⟩⟩]]) 0 2

/-- What is loaded, and what the column and its newest number come to, seen from the third day. -/
theorem exists_denoted_restated : ∃ (given : Workspace) (h₀ h₂ : History),
    (restatedEngine.loaded latestPlan restatedChunk).Is (.ok given) ∧
    latestPlan.Denotes restatedChunk given 0 h₀ ∧ latestPlan.Denotes restatedChunk given 2 h₂ ∧
    h₀.cell? 1 2 0 = some (.int 6) ∧ h₂.cell? 1 2 0 = some (.int 1) := by
  have hcells : (do
      let given ← ((restatedEngine.loaded latestPlan restatedChunk).run.run []).1
      let h ← latestPlan.computeNode restatedChunk given 2 (.latestOfColumn Tables.rate)
      return ((given.get? 0).bind (·.cell? 1 2 0), (given.get? 1).isSome, (given.get? 2).isNone, h.cell? 1 2 0)) =
      (.ok (some (.int 6), true, true, some (.int 1)) : Except RunError _) := by cbv
  obtain ⟨given, hrun, hcells⟩ := Checked.bind_eq_ok.1 hcells
  obtain ⟨h₂, hcomputed, hcells⟩ := Checked.bind_eq_ok.1 hcells
  obtain ⟨hcell₀, hgiven₁, hnone₂, hcell₂⟩ : _ ∧ _ ∧ _ ∧ _ := by simpa only [Prod.mk.injEq] using Except.ok.inj hcells
  obtain ⟨h₀, hgiven₀, hcell₀⟩ := Option.bind_eq_some_iff.1 hcell₀
  have hloaded : (restatedEngine.loaded latestPlan restatedChunk).Is (.ok given) := by
    obtain ⟨result, hresult⟩ := Run.exists_bind ⟨_, Run.is_lift (seed latestPlan restatedChunk)⟩ fun ws =>
      Run.exists_loadColumns restatedEngine.loaders latestPlan restatedChunk ws
    exact (hresult []).symm.trans hrun ▸ hresult
  have hread : ∀ dep ∈ latestPlan.graph.readBy 2, (given.get? dep).isSome = true := by
    intro dep hdep
    rw [show latestPlan.graph.readBy 2 = [0, 1] by cbv] at hdep
    rcases List.mem_cons.1 hdep with rfl | hdep
    · rw [hgiven₀]
      rfl
    · exact List.mem_singleton.1 hdep ▸ hgiven₁
  exact ⟨given, h₀, h₂, hloaded, .given hgiven₀, .computed (Option.isNone_iff_eq_none.1 hnone₂) rfl hread
    (fun _ _ _ hh => .given hh) hcomputed, hcell₀, hcell₂⟩

/-- To a window that ends on the third day, the column contributes the restated number, and its
newest number what it was on the second day. -/
theorem frozen_in_windows_restated : ∃ (given : Workspace) (h₀ h₂ : History),
    (restatedEngine.loaded latestPlan restatedChunk).Is (.ok given) ∧
    latestPlan.Denotes restatedChunk given 0 h₀ ∧ latestPlan.Denotes restatedChunk given 2 h₂ ∧
    restatedChunk.Contributes 0 0 h₀ 1 2 (latestGraph.strand (restatedWorld.knownOn 2) 0) ∧
    restatedChunk.Contributes 0 0 h₂ 1 2 (latestGraph.strand (restatedWorld.knownOn 1) 2) ∧
    h₀.cell? 1 2 0 = some (.int 6) ∧ h₂.cell? 1 2 0 = some (.int 1) := by
  obtain ⟨given, h₀, h₂, hloaded, hdenotes₀, hdenotes₂, hcell₀, hcell₂⟩ := exists_denoted_restated
  have htold := (rateEngine_overTables (Tables.reached_rates_nil.restate_rates 6 ⟨1⟩ ⟨1⟩ ⟨2⟩)).told
    (fun _ _ => rateEngine_wellFormed rfl) latestPipeline_decodes
  have hfrozen := (frozen_in_windows (x := (0, 2)) latestPipeline_plain.built htold (prepare_latestPipeline _)
    plan_latestPipeline (Nat.zero_le 0) (Nat.zero_le 2) (Nat.le_refl 2) given hloaded).1
  refine ⟨given, h₀, h₂, hloaded, hdenotes₀, hdenotes₂, ?_, ?_, hcell₀, hcell₂⟩
  · exact ((hfrozen 0 _ h₀ rfl (.ofColumn _) hdenotes₀).2 1 2 1 2 (by decide) (by decide) rfl rfl).1
  · exact ((hfrozen 2 _ h₂ rfl (.latestOfColumn _) hdenotes₂).2 1 2 1 2 (by decide) (by decide) rfl rfl).1

/-- The newest number counts as safe, but to that window it does not contribute what it would be
as known on the third day. -/
theorem not_as_known_restated : ∃ (given : Workspace) (h : History),
    (restatedEngine.loaded latestPlan restatedChunk).Is (.ok given) ∧ latestPlan.Denotes restatedChunk given 2 h ∧
    (Term.latestOfColumn Tables.rate).windowSafe = true ∧
    ¬restatedChunk.Contributes 0 0 h 1 2 (latestGraph.strand (restatedWorld.knownOn 2) 2) := by
  obtain ⟨given, -, h, hloaded, -, hdenotes, -, hcell⟩ := exists_denoted_restated
  refine ⟨given, h, hloaded, hdenotes, rfl, fun ⟨x, hx, hcells⟩ => ?_⟩
  have hlatest := (TermGraph.strand_of_latest (k := 0) (l := 2) (w := restatedWorld.knownOn 2)
    latestPipeline_plain.built graph_latestPipeline rfl
    ⟨Nat.lt_succ_self 2, _, rfl, Term.same_refl (.latestOfColumn Tables.rate)⟩).2
  have hasset : restatedChunk.sids[0]? = some ⟨1⟩ := by cbv
  have halive : (⟨1⟩ : Sid) ∈ (restatedWorld.knownOn 2).live 1 := by
    rw [show (restatedWorld.knownOn 2).live 1 = [⟨1⟩] by cbv]
    exact List.mem_singleton.2 rfl
  have hvalue : (restatedWorld.knownOn 2).known 0 1 1 ⟨1⟩ = .int 6 := by cbv
  have hrestated := (hcells 0 ⟨1⟩ hasset).trans (congrArg some ((hlatest 1 1 x hx ⟨1⟩ halive).trans hvalue))
  rw [hcell] at hrestated
  exact absurd (Scalar.int.inj (Option.some.inj hrestated)) (by decide)

end Engine
end AsOf
