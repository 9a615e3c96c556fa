import AsOf.Proofs.Grown
import AsOf.Proofs.Run.Whole

/-!
# Well-formed terms, of one market

A draft is checked when it is built, but some terms are finished without the checks, and a mask
is put on a term by building it anew. A term is checked against the domains of its inputs and
its mask only, so that the columns far below it agree is a fact about all the nodes between.

* `Domain.unify_isMarket`, `Domain.unify_ambiguous`: one market, or none that fits.
* `Term.Built.wellFormed`: what the checks of one node say of the columns below it.
* `Pipeline.ambiguous`: columns of two markets under one pipeline.
* `Term.wellFormed_or_refused`: every term is well formed, and no run goes over two markets.
-/
namespace AsOf

/-! ## Domains -/

namespace Domain

/-- The market of a code; the generic domain is none. -/
structure IsMarket (d : Domain) (code : String) : Prop where
  specialised : d.isGeneric = false
  code : d.code = code

theorem markets_concat (ds : List Domain) (d : Domain) :
    markets (ds ++ [d]) = if d.isGeneric || (markets ds).contains d then markets ds else markets ds ++ [d] := by
  rw [markets, List.foldl_append]
  rfl

/-- The markets among some domains, one for each code. -/
theorem markets_spec (ds : List Domain) :
    (∀ m ∈ markets ds, m.isGeneric = false) ∧ ∀ d ∈ ds, d.isGeneric = false → ∃ m ∈ markets ds, m.code = d.code := by
  induction ds using List.reverseRecOn with
  | nil => exact ⟨nofun, nofun⟩
  | append_singleton ds d ih =>
    obtain ⟨hmarkets, hcodes⟩ := ih
    rw [markets_concat]
    split
    · rename_i hknown
      refine ⟨hmarkets, fun d' hd' hs => ?_⟩
      rcases List.mem_append.1 hd' with hd' | hd'
      · exact hcodes d' hd' hs
      · obtain rfl := List.mem_singleton.1 hd'
        rw [hs, Bool.false_or, List.contains_iff_exists_mem_beq] at hknown
        obtain ⟨m, hm, hcode⟩ := hknown
        exact ⟨m, hm, (beq_iff_eq.1 (show (d'.code == m.code) = true from hcode)).symm⟩
    · rename_i hnew
      have hd : d.isGeneric = false := by
        rw [Bool.not_eq_true, Bool.or_eq_false_iff] at hnew
        exact hnew.1
      refine ⟨fun m hm => ?_, fun d' hd' hs => ?_⟩
      · rcases List.mem_append.1 hm with hm | hm
        · exact hmarkets m hm
        · exact List.mem_singleton.1 hm ▸ hd
      · rcases List.mem_append.1 hd' with hd' | hd'
        · obtain ⟨m, hm, hcode⟩ := hcodes d' hd' hs
          exact ⟨m, List.mem_append_left _ hm, hcode⟩
        · exact ⟨d', List.mem_append_right _ hd', rfl⟩

variable {ds : List Domain} {a b : Domain} {code code' : String}

theorem exists_mem_markets (ha : a ∈ ds) (h : a.IsMarket code) : ∃ m ∈ markets ds, m.IsMarket code := by
  obtain ⟨hmarkets, hcodes⟩ := markets_spec ds
  obtain ⟨m, hm, hcode⟩ := hcodes a ha h.specialised
  exact ⟨m, hm, hmarkets m hm, hcode.trans h.code⟩

/-- Domains that have a market in common have it in common with each market among them. -/
theorem unify_isMarket {d : Domain} (h : unify ds = .ok d) (ha : a ∈ ds) (hm : a.IsMarket code) :
    d.IsMarket code := by
  obtain ⟨m, hmem, hm⟩ := exists_mem_markets ha hm
  unfold unify at h
  split at h
  · rename_i hnone
    rw [hnone] at hmem
    cases hmem
  · rename_i hone
    rw [hone] at hmem
    rwa [← Except.ok.inj h, ← List.mem_singleton.1 hmem]
  · cases h

/-- Two markets have none in common, and both are named. -/
theorem unify_ambiguous (ha : a ∈ ds) (hb : b ∈ ds) (hm : a.IsMarket code) (hm' : b.IsMarket code')
    (hne : code ≠ code') : ∃ codes, unify ds = .error (.ambiguousDomain codes) ∧ code ∈ codes ∧ code' ∈ codes := by
  obtain ⟨m, hmem, hm⟩ := exists_mem_markets ha hm
  obtain ⟨m', hmem', hm'⟩ := exists_mem_markets hb hm'
  unfold unify
  split
  · rename_i hnone
    rw [hnone] at hmem
    cases hmem
  · rename_i hone
    rw [hone] at hmem hmem'
    have hsame : m = m' := (List.mem_singleton.1 hmem).trans (List.mem_singleton.1 hmem').symm
    exact absurd (hm.code.symm.trans ((congrArg Domain.code hsame).trans hm'.code)) hne
  · exact ⟨_, rfl, List.mem_map.2 ⟨m, hmem, hm.code⟩, List.mem_map.2 ⟨m', hmem', hm'.code⟩⟩

end Domain

/-! ## Terms -/

namespace Draft

variable {d : Draft} {t : Term}

theorem mem_domains_own {a : Domain} (ha : a ∈ d.domain) : a ∈ d.domains :=
  List.mem_append_left _ (List.mem_append_left _ (Option.mem_toList.2 ha))

theorem mem_domains_input {i : Term} (hi : i ∈ d.inputs) : i.domain ∈ d.domains :=
  List.mem_append_left _ (List.mem_append_right _ (List.mem_map_of_mem hi))

theorem mem_domains_mask {m : Term} (hm : m ∈ d.mask) : m.domain ∈ d.domains :=
  List.mem_append_right _ (Option.mem_toList.2 (Option.mem_map_of_mem _ hm))

/-- What is built fits the market of each of its parts. -/
theorem isMarket_of_build (h : d.build = .ok t) {a : Domain} (ha : a ∈ d.domains)
    {code : String} (hm : a.IsMarket code) : t.domain.IsMarket code := by
  obtain ⟨domain, hunify, rfl⟩ := (checks_of_build h).domain
  exact Domain.unify_isMarket hunify ha hm

end Draft

namespace Term

/-- A term and what it reads through inputs and masks. -/
inductive Reaches : Term → Term → Prop
  | refl (t : Term) : Reaches t t
  | input {t i u : Term} (hi : i ∈ t.inputs) (h : Reaches i u) : Reaches t u
  | mask {t m u : Term} (hm : m ∈ t.mask) (h : Reaches m u) : Reaches t u

/-- The term reads a column of a market. -/
def Sees (t : Term) (code : String) : Prop := ∃ u c, t.Reaches u ∧ u.kind = .column c ∧ c.domain.IsMarket code

variable {t u : Term} {code : String}

/-- What a term sees, it is itself or sees through an edge. -/
theorem sees_iff : t.Sees code ↔ (∃ c, t.kind = .column c ∧ c.domain.IsMarket code) ∨
    (∃ i ∈ t.inputs, i.Sees code) ∨ ∃ m ∈ t.mask, m.Sees code := by
  constructor
  · rintro ⟨u, c, hu, hk, hc⟩
    cases hu with
    | refl => exact .inl ⟨c, hk, hc⟩
    | input hi h => exact .inr (.inl ⟨_, hi, u, c, h, hk, hc⟩)
    | mask hm h => exact .inr (.inr ⟨_, hm, u, c, h, hk, hc⟩)
  · rintro (⟨c, hk, hc⟩ | ⟨i, hi, u, c, h, hk, hc⟩ | ⟨m, hm, u, c, h, hk, hc⟩)
    · exact ⟨t, c, .refl t, hk, hc⟩
    · exact ⟨u, c, .input hi h, hk, hc⟩
    · exact ⟨u, c, .mask hm h, hk, hc⟩

/-- A node that would pass all checks, over columns of no market but its own. -/
structure WellFormed (t : Term) : Prop where
  role : t.role.accepts t.dtype = true
  missing : t.missing.dtype = t.dtype
  window : ∀ minimum, t.kind.minimumWindow? = some minimum → minimum ≤ t.window
  safety : 1 < t.window → ∀ i ∈ t.inputs, i.windowSafe = true
  mask : ∀ m ∈ t.mask, m.role = .filter
  market : ∀ code, t.Sees code → t.domain.IsMarket code

/-- A draft passes the checks of its node; the market of what it sees is left to show. -/
theorem WellFormed.of_build {d : Draft} (h : d.build = .ok t)
    (market : ∀ code, t.Sees code → ∃ a ∈ d.domains, a.IsMarket code) : t.WellFormed := by
  have hp := Draft.passes_of_build h
  have hmarket : ∀ code, t.Sees code → t.domain.IsMarket code := fun code hs => by
    obtain ⟨a, ha, hm⟩ := market code hs
    exact Draft.isMarket_of_build h ha hm
  obtain ⟨domain, rfl, hmissing⟩ := Draft.build_eq_ok h
  exact ⟨hp.role, hmissing, hp.window, hp.safety, hp.mask, hmarket⟩

theorem wellFormed_ofColumn (c : Column) (h : c.missing.dtype = c.dtype) : (ofColumn c).WellFormed where
  role := Role.accepts_ofDtype _
  missing := h
  window := nofun
  safety hw := absurd hw (show ¬(1 : UInt64) < 0 by decide)
  mask := nofun
  market code hs := by
    rcases sees_iff.1 hs with ⟨c', hk, hc⟩ | ⟨_, hi, -⟩ | ⟨_, hm, -⟩
    · exact Kind.column.inj hk ▸ hc
    · cases hi
    · cases hm

/-- What is built is well formed: a term is of the market of what it sees. -/
theorem Built.wellFormed (h : t.Built) : t.WellFormed := by
  induction h with
  | assetExists =>
    refine ⟨rfl, rfl, nofun, fun hw => absurd hw (by decide), nofun, fun code hs => ?_⟩
    rcases sees_iff.1 hs with ⟨_, hk, -⟩ | ⟨_, hi, -⟩ | ⟨_, hm, -⟩
    · cases hk
    · cases hi
    · cases hm
  | ofColumn c h => exact wellFormed_ofColumn c h
  | latestOfColumn c h =>
    have hwindow : ¬(1 : UInt64) < 1 := by decide
    refine ⟨Role.accepts_ofDtype _, h, fun minimum hm => ?_, fun hw => absurd hw hwindow, nofun, fun code hs => ?_⟩
    · exact Option.some.inj hm ▸ UInt64.le_refl 1
    · rcases sees_iff.1 hs with ⟨_, hk, -⟩ | ⟨i, hi, hs⟩ | ⟨_, hm, -⟩
      · cases hk
      · obtain rfl := List.mem_singleton.1 hi
        exact (wellFormed_ofColumn c h).market code hs
      · cases hm
  | draft d t computed _ _ h ihi ihm =>
    refine .of_build h fun code hs => ?_
    obtain ⟨domain, rfl, -⟩ := Draft.build_eq_ok h
    rcases sees_iff.1 hs with ⟨c, hk, -⟩ | ⟨i, hi, hs⟩ | ⟨m, hm, hs⟩
    · rw [show d.kind = .column c from hk] at computed
      cases computed
    · exact ⟨i.domain, Draft.mem_domains_input hi, (ihi i hi).market code hs⟩
    · exact ⟨m.domain, Draft.mem_domains_mask hm, (ihm m hm).market code hs⟩
  | withMask t m t' _ _ h iht ihm =>
    refine .of_build h fun code hs => ?_
    obtain ⟨domain, rfl, -⟩ := Draft.build_eq_ok h
    have hparts : t.Sees code ∨ m.Sees code := by
      rcases sees_iff.1 hs with hs | hs | ⟨m', hm, hs⟩
      · exact .inl (sees_iff.2 (.inl hs))
      · exact .inl (sees_iff.2 (.inr (.inl hs)))
      · exact .inr (Option.some.inj hm ▸ hs)
    rcases hparts with hs | hs
    · -- a term that is masked brings its own domain, for it may be a column itself
      have hmarket := iht.market code hs
      have hown : t.domain ∈ (if t.domain.isGeneric then none else some t.domain) := by
        rw [hmarket.specialised]
        rfl
      exact ⟨t.domain, Draft.mem_domains_own hown, hmarket⟩
    · exact ⟨m.domain, Draft.mem_domains_mask rfl, ihm.market code hs⟩

theorem Built.of_reaches (h : t.Built) (hu : t.Reaches u) : u.Built := by
  induction hu with
  | refl => exact h
  | input hi _ ih => exact ih (h.edges.1 _ hi)
  | mask hm _ ih => exact ih (h.edges.2 _ hm)

end Term

/-! ## Pipelines -/

namespace Pipeline

variable {p : Pipeline} {t t' : Term} {code code' : String}

/-- Under a pipeline with columns of two markets there is no market to run on. -/
theorem ambiguous (ht : t ∈ p.terms) (ht' : t' ∈ p.terms) (hw : t.WellFormed) (hw' : t'.WellFormed)
    (hs : t.Sees code) (hs' : t'.Sees code') (hne : code ≠ code') :
    ∃ codes, (code ∈ codes ∧ code' ∈ codes) ∧
      ∀ default, p.domainOr default = .error (.term (.ambiguousDomain codes)) := by
  have hmem {u : Term} (hu : u ∈ p.terms) : u.domain ∈ p.domain.toList ++ p.terms.map Term.domain :=
    List.mem_append_right _ (List.mem_map_of_mem hu)
  obtain ⟨codes, hunify, hcode, hcode'⟩ :=
    Domain.unify_ambiguous (hmem ht) (hmem ht') (hw.market code hs) (hw'.market code' hs') hne
  refine ⟨codes, ⟨hcode, hcode'⟩, fun default => ?_⟩
  rw [domainOr, hunify]
  rfl

end Pipeline

/-- A run without a market to run on ends before it calls a loader. -/
theorem Engine.run_of_ambiguous (e : Engine) {p : Pipeline} {err : RunError} (h : p.domainOr e.domain = .error err)
    (start stop : Date) (size : Nat) (cancelled : Cancellation) (calls : List Call) :
    ∃ err', (e.runChunked p start stop size cancelled).run.run calls = (.error err', calls) ∧
      (size ≠ 0 → ¬stop < start → err' = err) := by
  by_cases hsize : size = 0
  · subst hsize
    exact ⟨.config .zeroChunk, by rw [runChunked_zero]; rfl, fun h => absurd rfl h⟩
  by_cases hdates : stop < start
  · have hprepare : e.prepare p start stop = .error (.invalidDateRange start stop) := if_pos hdates
    exact ⟨_, by rw [runChunked_of_error hsize hprepare]; rfl, fun _ h => absurd hdates h⟩
  · have hprepare : e.prepare p start stop = .error err := by
      unfold prepare
      rw [if_neg hdates, h]
      rfl
    exact ⟨err, by rw [runChunked_of_error hsize hprepare]; rfl, fun _ _ => rfl⟩

namespace Term

/-- All that the operations make is well formed, and so is all that it reads: role and missing
value go with the type, windows are long enough and read only what restated history leaves
alone, masks are filters, and there are columns of no market but the term's own. Where the
terms of a pipeline read columns of two markets, it has no market to run on, and every run
of it ends with an error before anything is loaded. -/
theorem wellFormed_or_refused :
    (∀ t : Term, t.Made → ∀ u, t.Reaches u → u.WellFormed) ∧
    ∀ p : Pipeline, (∀ t ∈ p.terms, t.Made) → ∀ t ∈ p.terms, ∀ t' ∈ p.terms, ∀ code code', t.Sees code →
      t'.Sees code' → code ≠ code' →
      ∃ codes, (code ∈ codes ∧ code' ∈ codes) ∧
        (∀ default, p.domainOr default = .error (.term (.ambiguousDomain codes))) ∧
        ∀ (e : Engine) (start stop : Date) (size : Nat) (cancelled : Cancellation) (calls : List Call),
          ∃ err, (e.runChunked p start stop size cancelled).run.run calls = (.error err, calls) ∧
            (size ≠ 0 → ¬stop < start → err = .term (.ambiguousDomain codes)) := by
  have hwell {t u : Term} (ht : t.Made) (hu : t.Reaches u) : u.WellFormed :=
    (ht.grown.built.of_reaches hu).wellFormed
  refine ⟨fun t ht u hu => hwell ht hu, fun p hp t ht t' ht' code code' hs hs' hne => ?_⟩
  obtain ⟨codes, hcodes, hdomain⟩ :=
    Pipeline.ambiguous ht ht' (hwell (hp t ht) (.refl t)) (hwell (hp t' ht') (.refl t')) hs hs' hne
  exact ⟨codes, hcodes, hdomain, fun e start stop size cancelled calls =>
    e.run_of_ambiguous (hdomain e.domain) start stop size cancelled calls⟩

/-! Prices in New York, smoothed over three sessions, and rates in London. -/

def market (code : String) : Domain := .market code ⟨code, #[]⟩

def newYork : Column := ⟨"Pricing", "close", .float64, .float nan, market "US"⟩

def london : Column := ⟨"Rates", "rate", .float64, .float nan, market "GB"⟩

def smoothed : Term :=
  .mk ⟨.window .simpleMovingAverage, .factor, .float64, .float nan, 3, market "US", false⟩ [.ofColumn newYork] none

/-- Both, side by side. -/
def twoMarkets : Pipeline := { columns := [("price", smoothed), ("rate", .ofColumn london)] }

theorem smoothed_made : smoothed.Made :=
  @Made.ofFactors .simpleMovingAverage [⟨.ofColumn newYork⟩] 3 ⟨smoothed⟩
    (List.forall_mem_singleton.2 (.ofColumn newYork rfl)) (List.forall_mem_singleton.2 rfl) rfl rfl rfl

theorem wellFormed_or_refused_twoMarkets : smoothed.Made ∧ smoothed.WellFormed ∧ smoothed.Sees "US" ∧
    (∀ t ∈ twoMarkets.terms, t.Made) ∧ ∃ codes, ("US" ∈ codes ∧ "GB" ∈ codes) ∧
      ∀ default, twoMarkets.domainOr default = .error (.term (.ambiguousDomain codes)) := by
  have hmade : ∀ t ∈ twoMarkets.terms, t.Made := by
    intro t ht
    rcases List.mem_cons.1 ht with rfl | ht
    · exact smoothed_made
    · obtain rfl := List.mem_singleton.1 ht
      exact .ofColumn london rfl
  have hus : smoothed.Sees "US" :=
    sees_iff.2 (.inr (.inl ⟨_, List.mem_cons_self, _, newYork, .refl _, rfl, rfl, rfl⟩))
  have hgb : (ofColumn london).Sees "GB" := ⟨_, london, .refl _, rfl, rfl, rfl⟩
  have hprice : smoothed ∈ twoMarkets.terms := List.mem_cons_self
  have hrate : ofColumn london ∈ twoMarkets.terms := List.mem_cons_of_mem _ List.mem_cons_self
  obtain ⟨codes, hcodes, hdomain, -⟩ :=
    wellFormed_or_refused.2 twoMarkets hmade _ hprice _ hrate "US" "GB" hus hgb (by decide)
  exact ⟨smoothed_made, wellFormed_or_refused.1 smoothed smoothed_made smoothed (.refl _), hus, hmade, codes, hcodes,
    hdomain⟩

end Term
end AsOf
