import AsOf.Pipeline
import AsOf.Proofs.Graph.Order
import AsOf.Proofs.Named

/-!
# Terms and pipelines as they are built

`Term.Built` holds of the terms that can be built: the existence of assets, columns, and
what drafts over such terms build to, under any masks. A pipeline is built from such
terms by name.

* `Term.Built.typed`: the missing value of a built term is of its type.
* `Term.Built.dependency`: what a built term reads is built.
* `Pipeline.Built.of_graph`: all terms of the graph of a built pipeline are built.
-/
namespace AsOf

/-! ## Drafts -/

theorem Dtype.dtype_defaultMissing {d : Dtype} {value : Scalar} (h : d.defaultMissing? = some value) :
    value.dtype = d := by
  cases d with
  | int64 => cases h
  | _ => rw [← Option.some.inj h]; rfl

namespace Draft

variable {d : Draft} {t : Term}

/-- The checks of a draft that is built, none of which fails. -/
structure Checks (d : Draft) (t : Term) : Prop where
  role : d.checkRole = .ok ()
  missing : d.checkMissing = .ok ()
  window : d.checkWindow = .ok ()
  safety : d.checkSafety = .ok ()
  mask : d.checkMask = .ok ()
  domain : ∃ domain, Domain.unify d.domains = .ok domain ∧ t = d.finish domain

theorem checks_of_build (h : d.build = .ok t) : d.Checks t := by
  obtain ⟨_, hrole, h⟩ := Checked.bind_eq_ok.1 h
  obtain ⟨_, hmissing, h⟩ := Checked.bind_eq_ok.1 h
  obtain ⟨_, hwindow, h⟩ := Checked.bind_eq_ok.1 h
  obtain ⟨_, hsafety, h⟩ := Checked.bind_eq_ok.1 h
  obtain ⟨_, hmask, h⟩ := Checked.bind_eq_ok.1 h
  obtain ⟨domain, hdomain, h⟩ := Checked.bind_eq_ok.1 h
  exact ⟨hrole, hmissing, hwindow, hsafety, hmask, domain, hdomain, (Except.ok.inj h).symm⟩

/-- What is built is the draft, and its missing value is of its type. -/
theorem build_eq_ok (h : d.build = .ok t) :
    ∃ domain, t = d.finish domain ∧ t.missing.dtype = d.dtype := by
  have hchecks := checks_of_build h
  have hmissing := hchecks.missing
  obtain ⟨domain, -, rfl⟩ := hchecks.domain
  refine ⟨domain, rfl, ?_⟩
  show ((d.missing.or d.dtype.defaultMissing?).getD (.int 0)).dtype = d.dtype
  unfold checkMissing at hmissing
  cases hm : d.missing with
  | some value =>
    simp only [hm] at hmissing
    split at hmissing
    · assumption
    · cases hmissing
  | none =>
    simp only [hm] at hmissing
    split at hmissing
    · rename_i hd
      obtain ⟨value, hv⟩ := Option.isSome_iff_exists.1 hd
      rw [Option.none_or, hv]
      exact Dtype.dtype_defaultMissing hv
    · cases hmissing

end Draft

/-! ## Terms -/

namespace Term

/-- Terms that can be built. -/
inductive Built : Term → Prop
  | assetExists : Built assetExists
  | ofColumn (c : Column) (h : c.missing.dtype = c.dtype) : Built (ofColumn c)
  | latestOfColumn (c : Column) (h : c.missing.dtype = c.dtype) : Built (latestOfColumn c)
  | draft (d : Draft) (t : Term) (computed : d.kind.isLoadable = false) (inputs : ∀ i ∈ d.inputs, Built i)
    (mask : ∀ m ∈ d.mask, Built m) (h : d.build = .ok t) : Built t
  | withMask (t m t' : Term) (term : Built t) (mask : Built m) (h : t.withMask m = .ok t') : Built t'

variable {t : Term}

theorem Built.edges (h : t.Built) : (∀ i ∈ t.inputs, i.Built) ∧ ∀ m ∈ t.mask, m.Built := by
  induction h with
  | assetExists => exact ⟨fun _ h => (nomatch h), fun _ h => (nomatch h)⟩
  | ofColumn c h => exact ⟨fun _ h => (nomatch h), fun _ h => (nomatch h)⟩
  | latestOfColumn c h =>
    refine ⟨fun i hi => ?_, fun _ h => (nomatch h)⟩
    obtain rfl := List.mem_singleton.1 hi
    exact .ofColumn c h
  | draft d t _ inputs mask h =>
    obtain ⟨domain, rfl, -⟩ := Draft.build_eq_ok h
    exact ⟨inputs, mask⟩
  | withMask t m t' _ mask h ih _ =>
    obtain ⟨domain, rfl, -⟩ := Draft.build_eq_ok h
    refine ⟨ih.1, fun m' hm => ?_⟩
    obtain rfl := Option.mem_some.1 hm
    exact mask

/-- What a built term reads is built. -/
theorem Built.dependency (h : t.Built) {dep : Term} (hd : dep ∈ t.dependencies) : dep.Built := by
  rw [dependencies, readings] at hd
  split at hd
  · cases hd
  · rw [List.map_append, List.mem_append] at hd
    rcases hd with hd | hd
    · obtain ⟨r, hr, rfl⟩ := List.mem_map.1 hd
      obtain ⟨i, hi, rfl⟩ := List.mem_map.1 hr
      exact h.edges.1 i hi
    · obtain rfl := List.mem_singleton.1 hd
      cases hm : t.mask with
      | none => exact .assetExists
      | some m => exact h.edges.2 m hm

/-- What is loaded, without a mask, is the existence of assets or a column. -/
theorem Built.of_isLoadable (h : t.Built) (hl : t.isLoadable = true) (hm : t.mask = none) :
    t = Term.assetExists ∨ ∃ c, t = Term.ofColumn c := by
  cases h with
  | assetExists => exact .inl rfl
  | ofColumn c _ => exact .inr ⟨c, rfl⟩
  | latestOfColumn c _ => cases hl
  | draft d _ computed _ _ hb =>
    obtain ⟨domain, rfl, -⟩ := Draft.build_eq_ok hb
    rw [show (d.finish domain).isLoadable = d.kind.isLoadable from rfl, computed] at hl
    cases hl
  | withMask t m _ _ _ hb =>
    obtain ⟨domain, rfl, -⟩ := Draft.build_eq_ok hb
    cases hm

/-- The missing value of a term and the column that it reads are of its type. -/
structure Typed (t : Term) : Prop where
  missing : t.missing.dtype = t.dtype
  column : ∀ c, t.column? = some c → c.dtype = t.dtype

theorem kind_of_column? {c : Column} (h : t.column? = some c) : t.kind = .column c := by
  unfold column? at h
  split at h
  · rename_i hk
    rw [hk, Option.some.inj h]
  · cases h

theorem Built.typed (h : t.Built) : t.Typed := by
  induction h with
  | assetExists => exact ⟨rfl, nofun⟩
  | ofColumn c h => exact ⟨h, fun c' hc => by cases hc; rfl⟩
  | latestOfColumn c h => exact ⟨h, nofun⟩
  | draft d t computed inputs mask h =>
    obtain ⟨domain, rfl, hm⟩ := Draft.build_eq_ok h
    refine ⟨hm, fun c hc => ?_⟩
    rw [show d.kind = .column c from kind_of_column? hc] at computed
    cases computed
  | withMask t m t' term mask h ih _ =>
    obtain ⟨domain, rfl, hm⟩ := Draft.build_eq_ok h
    exact ⟨hm, ih.column⟩

end Term

/-! ## Pipelines -/

namespace Pipeline

/-- A pipeline of built terms, with columns in the order of their names. -/
structure Built (p : Pipeline) : Prop where
  ordered : p.columns.Ordered
  terms : ∀ t ∈ p.terms, t.Built

variable {p : Pipeline}

theorem built_empty : ({} : Pipeline).Built := ⟨List.Pairwise.nil, fun _ h => (nomatch h)⟩

theorem mem_terms {t : Term} : t ∈ p.terms ↔ (∃ x ∈ p.columns, x.2 = t) ∨ ∃ s ∈ p.screen, s.term = t := by
  rw [terms, List.mem_append, Named.items, List.mem_map, Option.mem_toList, Option.map_eq_some_iff]
  rfl

theorem Built.add (h : p.Built) {name : String} {t : Term} (ht : t.Built) {p' : Pipeline}
    (hp : p.add name t = .ok p') : p'.Built := by
  unfold Pipeline.add at hp
  split at hp
  · cases hp
  · obtain rfl := Except.ok.inj hp
    refine ⟨h.ordered.insert name t, fun t' ht' => ?_⟩
    rcases mem_terms.1 ht' with ⟨x, hx, rfl⟩ | hs
    · rcases Named.mem_insert hx with rfl | hx
      · exact ht
      · exact h.terms _ (mem_terms.2 (.inl ⟨x, hx, rfl⟩))
    · exact h.terms _ (mem_terms.2 (.inr hs))

theorem Built.remove (h : p.Built) (name : String) : (p.remove name).Built := by
  refine ⟨h.ordered.erase name, fun t ht => ?_⟩
  rcases mem_terms.1 ht with ⟨x, hx, rfl⟩ | hs
  · exact h.terms _ (mem_terms.2 (.inl ⟨x, (List.mem_filter.1 hx).1, rfl⟩))
  · exact h.terms _ (mem_terms.2 (.inr hs))

theorem Built.setScreen (h : p.Built) {screen : Filter} (hs : screen.term.Built) :
    (p.setScreen screen).Built := by
  refine ⟨h.ordered, fun t ht => ?_⟩
  rcases mem_terms.1 ht with hx | ⟨s, hs', rfl⟩
  · exact h.terms _ (mem_terms.2 (.inl hx))
  · obtain rfl := Option.mem_some.1 hs'
    exact hs

theorem graph_eq_ok {g : TermGraph} (h : p.graph = .ok g) :
    TermGraph.of? p.columns (p.screen.map Filter.term) = .ok g := Checked.mapError_eq_ok.1 h

/-- The terms of a pipeline and everything that they read. -/
inductive Holds (p : Pipeline) : Term → Prop
  | root {t : Term} (h : t ∈ p.terms) : Holds p t
  | dependency {t dep : Term} (h : Holds p t) (hd : dep ∈ t.dependencies) : Holds p dep

theorem Holds.built (hp : p.Built) {t : Term} (h : p.Holds t) : t.Built := by
  induction h with
  | root h => exact hp.terms _ h
  | dependency _ hd ih => exact ih.dependency hd

/-- The graph of a pipeline has no other terms. -/
theorem holds_of_graph {g : TermGraph} (h : p.graph = .ok g) {node : Nat} {t : Term}
    (ht : g.terms[node]? = some t) : p.Holds t :=
  TermGraph.forall_terms (graph_eq_ok h) (fun _ ht _ hd => .dependency ht hd) (fun _ ht => .root ht) ht

/-- All terms of the graph of a built pipeline are built. -/
theorem Built.of_graph (hp : p.Built) {g : TermGraph} (h : p.graph = .ok g) {node : Nat} {t : Term}
    (ht : g.terms[node]? = some t) : t.Built := (holds_of_graph h ht).built hp

end Pipeline
end AsOf
