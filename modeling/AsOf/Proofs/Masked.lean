import AsOf.Proofs.Chunks
import AsOf.Proofs.Graph.Reads
import AsOf.Proofs.Shown

/-!
# Outside of masks

A computed term has its missing value wherever its mask is false. A column has not: it has
no mask to be read, whichever it is given.

* `TermGraph.strand_outside`: a node where its mask does not pass.
* `Engine.missing_outside_mask`: an output and the output of its mask.
-/
namespace AsOf

/-! ## Cells of a result -/

namespace Values

theorem get?_ofScalars {dtype : Dtype} {xs : List Scalar} {i : Nat} {x : Scalar} (hx : xs[i]? = some x)
    (hd : x.dtype = dtype) : (ofScalars dtype xs).get? i = some x := by
  subst hd
  cases x <;> simp only [ofScalars, Scalar.dtype, get?, List.getElem?_map, hx, Option.map_some] <;> rfl

/-- A false cell stands for a value that is not true. -/
theorem not_true_of_get? {dtype : Dtype} {xs : List Scalar} {i : Nat}
    (h : (ofScalars dtype xs).get? i = some (.bool false)) : ∃ x, xs[i]? = some x ∧ x.asBool?.getD false = false := by
  cases dtype with
  | bool =>
    simp only [ofScalars, get?, List.getElem?_map] at h
    cases hx : xs[i]? with
    | none =>
      rw [hx] at h
      cases h
    | some x =>
      rw [hx] at h
      exact ⟨x, rfl, Scalar.bool.inj (Option.some.inj h)⟩
  | _ =>
    simp only [ofScalars, get?, List.getElem?_map, Option.map_map] at h
    obtain ⟨x, -, hx⟩ := Option.map_eq_some_iff.1 h
    cases hx

end Values

namespace TermGraph

variable {outputs : Named Term} {screen : Option Term} {g : TermGraph} {w : World}

/-- Where the node of its mask is not true, a computed node has its missing value. -/
theorem strand_outside (h : of? outputs screen = .ok g) {node : Nat} {t : Term} (ht : g.terms[node]? = some t)
    (hl : t.isLoadable = false) {m m' : Term} (htm : t.mask = some m) (hm : m'.same m = true) {k : Nat}
    (hk : g.terms[k]? = some m') {r q : Nat} {row : Sid → Scalar} (hrow : (g.strand w node).row? r q = some row)
    {sid : Sid} (hf : ((g.strand w k).value r sid).asBool?.getD false = false) : row sid = t.missing := by
  obtain ⟨mask, inputs, hreads⟩ := exists_reads h ht hl
  obtain ⟨m'', hm'', hsame⟩ := hreads.holds_mask.term
  rw [htm, Option.getD_some] at hsame
  obtain rfl : mask = k := node_unique h hm'' hk (Term.same_trans m'' m m' hsame ((Term.same_comm m m').trans hm))
  rw [hreads.strand_eq] at hrow
  exact Term.rowAt?_outside hrow (.inr hf)

end TermGraph

namespace Engine

variable {e : Engine} {pipeline : Pipeline} {alive : Date → Sid → Bool}
  {ledger? : List Date → Column → Option Ledger} {mayRefuse : Prop} {start stop : Date} {size : Nat}

/-- A run that ends well is a table of sessions on which all computed nodes have a row. -/
theorem table_of_ok (hb : pipeline.Built) (ht : e.Told pipeline alive ledger? mayRefuse) {cancelled : Cancellation}
    {calls : List Call} {r : Result} (h : ((e.runChunked pipeline start stop size cancelled).run.run calls).1 = .ok r) :
    ∃ g w sessions, pipeline.graph = .ok g ∧ r = g.table w sessions ∧ ∀ s ∈ sessions, ∀ (node : Nat) (t : Term),
      g.terms[node]? = some t → t.isLoadable = false → ((g.strand (w s) node).row? s s).isSome = true := by
  obtain ⟨-, job, calls', hj, hwork⟩ := runChunked_of_ok h
  obtain ⟨-, -, -, hgraph, -⟩ := prepare_eq_ok.1 hj
  rcases work_of_ok ht hj hwork with ⟨-, rfl⟩ | ⟨first, last, p, -, hp, hall, rfl⟩
  · exact ⟨job.graph, fun _ => ⟨fun _ => ⟨0⟩, fun _ => [], fun _ _ _ _ => .label none⟩, [], hgraph,
      emptyResult_eq hb hgraph _, fun _ hs => absurd hs List.not_mem_nil⟩
  · obtain ⟨hg, -⟩ := Plan.sound_of (Pipeline.graph_eq_ok hgraph) hp
    obtain ⟨-, -, hl, hextra⟩ := Plan.of?_spec hp
    refine ⟨job.graph, _, _, hgraph, rfl, fun s hs node t hnode hload => ?_⟩
    rw [← hg] at hnode ⊢
    refine isSome_row?_worlds hextra hl hall hnode ?_ hs
    exact Bool.eq_false_iff.2 fun hgiven => Bool.eq_false_iff.1 hload (TermGraph.isLoadable_of_isGiven hnode hgiven)

/-- An output that is computed under a mask has its missing value in every row in which the
output of the mask is false. -/
theorem missing_outside_mask (hb : pipeline.Built) (ht : e.Told pipeline alive ledger? mayRefuse)
    {name maskName : String} {t m : Term} (ho : (name, t) ∈ pipeline.columns) (hm : (maskName, m) ∈ pipeline.columns)
    (htm : t.mask = some m) (hl : t.isLoadable = false) {cancelled : Cancellation} {calls : List Call} {r : Result}
    (h : ((e.runChunked pipeline start stop size cancelled).run.run calls).1 = .ok r) :
    ∃ xs ys, (name, xs) ∈ r.columns ∧ (maskName, ys) ∈ r.columns ∧
      ∀ i, ys.get? i = some (.bool false) → xs.get? i = some t.missing := by
  obtain ⟨g, w, sessions, hgraph, rfl, hrows⟩ := table_of_ok hb ht h
  have hof := Pipeline.graph_eq_ok hgraph
  obtain ⟨n, hn, hname, t', ht', hsame⟩ := Checked.exists_right (TermGraph.outputs_spec hof) ho
  obtain ⟨k, hk, hkname, m', hm', hmsame⟩ := Checked.exists_right (TermGraph.outputs_spec hof) hm
  obtain ⟨m'', htm', hmm⟩ := Term.mask_of_same hsame htm
  have hl' : t'.isLoadable = false := (Term.isLoadable_of_same hsame).trans hl
  have htyped := (hb.of_graph hgraph ht').typed
  refine ⟨_, _, List.mem_map.2 ⟨n, hn, Prod.ext hname rfl⟩, List.mem_map.2 ⟨k, hk, Prod.ext hkname rfl⟩, fun i hi => ?_⟩
  obtain ⟨x, hx, hfalse⟩ := Values.not_true_of_get? hi
  obtain ⟨key, hkey, rfl⟩ := Option.map_eq_some_iff.1 (List.getElem?_map ▸ hx)
  obtain ⟨row, hrow⟩ := Option.isSome_iff_exists.1
    (hrows key.1 (TermGraph.of_mem_keys (List.mem_of_getElem? hkey)).1 n.2 t' ht' hl')
  have hvalue : (g.strand (w key.1) n.2).value key.1 key.2 = t.missing := by
    rw [Strand.value, hrow, ← Term.missing_of_same hsame]
    exact TermGraph.strand_outside hof ht' hl' htm' (Term.same_trans m' m m'' hmsame
      ((Term.same_comm m m'').trans hmm)) hm' hrow hfalse
  refine Values.get?_ofScalars ?_ ?_
  · rw [List.getElem?_map, hkey, Option.map_some, hvalue]
  · rw [dtypeOf_eq ht' htyped, ← htyped.missing, Term.missing_of_same hsame]

/-! Both assets of a market, under a mask for the second. -/

/-- The filter of both assets, where the second is. -/
def bothAssets : Term :=
  .mk ⟨.staticAssets [⟨1⟩, ⟨2⟩], .filter, .bool, .bool false, 0, .generic, true⟩ [] (some secondAsset)

def maskedPipeline : Pipeline := { columns := [("both", bothAssets), ("second", secondAsset)] }

theorem bothAssets_built : bothAssets.Built :=
  .draft { kind := .staticAssets [⟨1⟩, ⟨2⟩], role := .filter, dtype := .bool, windowSafe := true,
           mask := some secondAsset } _ rfl nofun (fun _ hm => Option.mem_some.1 hm ▸ secondAsset_built) rfl

theorem maskedPipeline_built : maskedPipeline.Built where
  ordered := by
    unfold Named.Ordered
    decide
  terms t ht := by
    rcases List.mem_cons.1 ht with rfl | ht
    · exact bothAssets_built
    · obtain rfl := List.mem_singleton.1 ht
      exact secondAsset_built

/-- What these two filters depend on. -/
theorem held_of_masked {p : Pipeline} (hp : ∀ t ∈ p.terms, t = bothAssets ∨ t = secondAsset) {t : Term}
    (h : p.Holds t) : t = bothAssets ∨ t = secondAsset ∨ t = .assetExists := by
  induction h with
  | root h => exact (hp _ h).imp_right .inl
  | dependency _ hd ih =>
    rcases ih with rfl | rfl | rfl
    · exact .inr (.inl (List.mem_singleton.1 hd))
    · exact .inr (.inr (List.mem_singleton.1 hd))
    · cases hd

theorem masked_decodes {p : Pipeline} (hp : ∀ t ∈ p.terms, t = bothAssets ∨ t = secondAsset) : KernelsDecode p := by
  intro g hg node t k ht hk
  rcases held_of_masked hp (Pipeline.holds_of_graph hg ht) with rfl | rfl | rfl <;> cases hk

theorem terms_maskedPipeline : ∀ t ∈ maskedPipeline.terms, t = bothAssets ∨ t = secondAsset := by
  intro t ht
  rcases List.mem_cons.1 ht with rfl | ht
  · exact .inl rfl
  · exact .inr (List.mem_singleton.1 ht)

theorem bareEngine_overTables : bareEngine.OverTables twoLives [] :=
  ⟨rfl, twoLives_ordered, .nil, fun _ ht => absurd ht List.not_mem_nil, fun _ ht => absurd ht List.not_mem_nil⟩

/-- The first asset, which is one of both, is not one of them under the mask. -/
theorem missing_outside_mask_static :
    ((bareEngine.runChunked maskedPipeline ⟨1⟩ ⟨2⟩ 1 .never).run.run []).1 =
      .ok ⟨#[⟨1⟩, ⟨1⟩, ⟨2⟩, ⟨2⟩], #[⟨1⟩, ⟨2⟩, ⟨1⟩, ⟨2⟩],
        [("both", .bools [false, true, false, true]), ("second", .bools [false, true, false, true])]⟩ ∧
    ∃ xs ys, ("both", xs) ∈ [("both", Values.bools [false, true, false, true]),
        ("second", .bools [false, true, false, true])] ∧
      ("second", ys) ∈ [("both", Values.bools [false, true, false, true]),
        ("second", .bools [false, true, false, true])] ∧
      ∀ i, ys.get? i = some (.bool false) → xs.get? i = some (.bool false) := by
  have hrun : ((bareEngine.runChunked maskedPipeline ⟨1⟩ ⟨2⟩ 1 .never).run.run []).1 =
      .ok ⟨#[⟨1⟩, ⟨1⟩, ⟨2⟩, ⟨2⟩], #[⟨1⟩, ⟨2⟩, ⟨1⟩, ⟨2⟩],
        [("both", .bools [false, true, false, true]), ("second", .bools [false, true, false, true])]⟩ := by cbv
  have htold := @OverTables.told _ _ _ maskedPipeline bareEngine_overTables (fun _ _ => bareEngine_wellFormed rfl)
    (masked_decodes terms_maskedPipeline)
  exact ⟨hrun, missing_outside_mask maskedPipeline_built htold (t := bothAssets) (m := secondAsset)
    List.mem_cons_self (List.mem_cons_of_mem _ (List.mem_singleton.2 rfl)) rfl rfl hrun⟩

end Engine
end AsOf
