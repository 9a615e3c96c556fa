import AsOf.Proofs.WellFormed

/-!
# Masks that replace each other

A mask is put on a term by building it anew of its own parts, and one of those parts is the domain
that was found when it was last built. So the term is bound to the market of a mask that it no
longer has. Where the market was its own, or the mask had none, a second mask replaces the first
without a trace.

* `Domain.markets_of_unify`: a domain stands for those that it was found among.
* `Term.Built.withMask_eq_ok`: what putting on a mask makes.
* `Term.mask_replaced`: a mask after another one, and when the first is forgotten.
-/
namespace AsOf

/-! ## Domains that stand for others -/

namespace Domain

variable {d : Domain} {ds es : List Domain}

/-- A further domain brings a market if it is one that has not been found. -/
theorem markets_append_congr (h : markets ds = markets es) (rest : List Domain) :
    markets (ds ++ rest) = markets (es ++ rest) := by
  unfold markets at h ⊢
  rw [List.foldl_append, List.foldl_append, h]

theorem markets_singleton (d : Domain) : markets [d] = if d.isGeneric then [] else [d] := by
  cases d <;> rfl

/-- What the domains have in common has the markets that they have. -/
theorem markets_of_unify (h : unify ds = .ok d) : markets [d] = markets ds := by
  unfold unify at h
  split at h
  · rename_i hnone
    obtain rfl := Except.ok.inj h
    exact hnone.symm
  · rename_i hone
    obtain rfl := Except.ok.inj h
    rw [hone, markets_singleton, (markets_spec ds).1 _ (hone ▸ List.mem_cons_self)]
    rfl
  · cases h

/-- Domains of no other market bring none. -/
theorem markets_cons_of_isMarket (h : ∀ e ∈ es, e.isGeneric = false → d.IsMarket e.code) :
    markets (d :: es) = markets [d] := by
  induction es using List.reverseRecOn with
  | nil => rfl
  | append_singleton es e ih =>
    have hknown : (e.isGeneric || (markets [d]).contains e) = true := by
      cases he : e.isGeneric with
      | true => rfl
      | false =>
        obtain ⟨hspecialised, hcode⟩ := h e (List.mem_append_right _ List.mem_cons_self) he
        rw [markets_singleton, hspecialised]
        exact List.contains_iff_exists_mem_beq.2 ⟨d, List.mem_cons_self, beq_iff_eq (a := e.code) (b := d.code).2 hcode.symm⟩
    rw [← List.cons_append, markets_concat, ih fun e he => h e (List.mem_append_left _ he), if_pos hknown]

theorem markets_cons_of_isGeneric (h : d.isGeneric = true) (es : List Domain) : markets (d :: es) = markets es := by
  cases d with
  | generic => rfl
  | market => cases h

theorem unify_congr (h : markets ds = markets es) : unify ds = unify es := by
  rw [unify, h]
  rfl

theorem unify_singleton (d : Domain) : unify [d] = .ok d := by
  cases d <;> rfl

/-- A market goes with the generic domain and with itself. -/
theorem unify_pair {e : Domain} (hd : d.isGeneric = false) :
    unify [d, e] = if e.isGeneric || e == d then .ok d else .error (.ambiguousDomain [d.code, e.code]) := by
  have hfirst : markets [d] = [d] := by
    rw [markets_singleton, hd]
    rfl
  have hcontains : [d].contains e = (e == d) := by
    rw [List.contains_cons, List.contains_nil, Bool.or_false]
  rw [unify, show [d, e] = [d] ++ [e] from rfl, markets_concat, hfirst, hcontains]
  cases (e.isGeneric || e == d) <;> rfl

end Domain

/-! ## A mask put on -/

namespace Draft

variable {d : Draft} {t : Term}

/-- The checks of a node do not ask for the domain that the draft brings. -/
theorem build_of_checks (h : d.build = .ok t) (own : Option Domain) :
    ({ d with domain := own } : Draft).build =
      (Domain.unify ({ d with domain := own } : Draft).domains).map d.finish := by
  obtain ⟨hrole, hmissing, hwindow, hsafety, hmask, -⟩ := checks_of_build h
  unfold build
  have hrole : ({ d with domain := own } : Draft).checkRole = .ok () := hrole
  have hmissing : ({ d with domain := own } : Draft).checkMissing = .ok () := hmissing
  have hwindow : ({ d with domain := own } : Draft).checkWindow = .ok () := hwindow
  have hsafety : ({ d with domain := own } : Draft).checkSafety = .ok () := hsafety
  have hmask : ({ d with domain := own } : Draft).checkMask = .ok () := hmask
  rw [hrole, hmissing, hwindow, hsafety, hmask]
  cases Domain.unify ({ d with domain := own } : Draft).domains <;> rfl

end Draft

namespace Term

variable {x m m' t : Term}

/-- The same node in a domain. -/
def inDomain (t : Term) (d : Domain) : Term := .mk { t.head with domain := d } t.inputs t.mask

/-- The same node under a mask, in a domain. -/
def masked (x m : Term) (d : Domain) : Term := .mk { x.head with domain := d } x.inputs (some m)

/-- A term is the same in another domain if that has its code. -/
theorem inDomain_same (t : Term) (d : Domain) : (t.inDomain d == t) = (d == t.domain) := by
  obtain ⟨head, inputs, mask⟩ := t
  have hkind : (head.kind == head.kind) = true := Kind.same_refl head.kind
  show (Head.same { head with domain := d } head && sameAll inputs inputs && sameMask mask mask) = _
  rw [sameAll_refl, sameMask_refl, Bool.and_true, Bool.and_true, Head.same, hkind]
  simp only [beq_self_eq_true, Bool.true_and]
  rfl

/-- The draft of a term under a mask. -/
def maskDraft (x m : Term) : Draft :=
  { kind := x.kind, role := x.role, dtype := x.dtype, missing := some x.missing, window := x.window,
    inputs := x.inputs, mask := some m, windowSafe := x.windowSafe,
    domain := if x.domain.isGeneric then none else some x.domain }

/-- What is built has no input of a market other than its own. -/
theorem Built.isMarket_of_input (h : x.Built) {i : Term} (hi : i ∈ x.inputs) (hm : i.domain.isGeneric = false) :
    x.domain.IsMarket i.domain.code := by
  cases h with
  | assetExists => cases hi
  | ofColumn c h => cases hi
  | latestOfColumn c h =>
    obtain rfl := List.mem_singleton.1 hi
    exact ⟨hm, rfl⟩
  | draft d t computed _ _ h =>
    have hmem : i ∈ d.inputs := by
      obtain ⟨domain, rfl, -⟩ := Draft.build_eq_ok h
      exact hi
    exact Draft.isMarket_of_build h (Draft.mem_domains_input hmem) ⟨hm, rfl⟩
  | withMask t m t' _ _ h =>
    have hmem : i ∈ (maskDraft t m).inputs := by
      obtain ⟨domain, rfl, -⟩ := Draft.build_eq_ok h
      exact hi
    exact Draft.isMarket_of_build h (Draft.mem_domains_input hmem) ⟨hm, rfl⟩

/-- Of the domains that a term under a mask must have in common, its own and that of the mask count. -/
theorem markets_maskDraft (h : ∀ i ∈ x.inputs, i.domain.isGeneric = false → x.domain.IsMarket i.domain.code)
    (m : Term) : Domain.markets (maskDraft x m).domains = Domain.markets [x.domain, m.domain] := by
  have hown : Domain.markets ((maskDraft x m).domain.toList ++ x.inputs.map domain) = Domain.markets [x.domain] := by
    have hinputs : ∀ d ∈ x.inputs.map domain, d.isGeneric = false → x.domain.IsMarket d.code := fun d hd => by
      obtain ⟨i, hi, rfl⟩ := List.mem_map.1 hd
      exact h i hi
    rw [← Domain.markets_cons_of_isMarket hinputs]
    have hdraft : Domain.markets (maskDraft x m).domain.toList = Domain.markets [x.domain] := by
      unfold maskDraft
      cases x.domain <;> rfl
    exact Domain.markets_append_congr hdraft _
  exact Domain.markets_append_congr hown [m.domain]

/-- A mask that can be put on goes with the market of the term. -/
theorem Built.withMask_eq_ok (hx : x.Built) (h : x.withMask m = .ok t) :
    ∃ d, Domain.unify [x.domain, m.domain] = .ok d ∧ t = x.masked m d := by
  obtain ⟨d, hd, rfl⟩ := (Draft.checks_of_build h).domain
  exact ⟨d, (Domain.unify_congr (markets_maskDraft (fun _ => hx.isMarket_of_input) m)).symm.trans hd, rfl⟩

/-- What is under one mask is put under another one with the markets of both. -/
theorem Built.withMask_withMask {x₁ x₂ : Term} (hx : x.Built) (h₁ : x.withMask m = .ok x₁)
    (h₂ : x.withMask m' = .ok x₂) :
    x₁.withMask m' = (Domain.unify [x.domain, m.domain, m'.domain]).map x₂.inDomain := by
  obtain ⟨d₁, hd₁, rfl⟩ := hx.withMask_eq_ok h₁
  obtain ⟨d₂, -, rfl⟩ := hx.withMask_eq_ok h₂
  have hinputs : ∀ i ∈ x.inputs, i.domain.isGeneric = false → d₁.IsMarket i.domain.code := fun i hi hm =>
    Domain.unify_isMarket hd₁ List.mem_cons_self (hx.isMarket_of_input hi hm)
  have hmarkets : Domain.markets (maskDraft (x.masked m d₁) m').domains =
      Domain.markets [x.domain, m.domain, m'.domain] :=
    (markets_maskDraft hinputs m').trans
      (Domain.markets_append_congr (Domain.markets_of_unify hd₁) [m'.domain])
  rw [← Domain.unify_congr hmarkets]
  exact Draft.build_of_checks h₂ (if d₁.isGeneric then none else some d₁)

/-- A mask that brings no market of its own leaves nothing behind. -/
theorem Built.withMask_forgets {x₁ x₂ : Term} (hx : x.Built) (h₁ : x.withMask m = .ok x₁)
    (h₂ : x.withMask m' = .ok x₂) (h : x.domain.isGeneric = false ∨ m.domain.isGeneric = true) :
    x₁.withMask m' = .ok x₂ := by
  obtain ⟨d₁, hd₁, -⟩ := hx.withMask_eq_ok h₁
  obtain ⟨d₂, hd₂, rfl⟩ := hx.withMask_eq_ok h₂
  have hmask : ∀ e ∈ [m.domain], e.isGeneric = false → x.domain.IsMarket e.code := fun e he hm => by
    obtain rfl := List.mem_singleton.1 he
    have hown := h.resolve_right (by rw [hm]; exact Bool.false_ne_true)
    have hfit := Domain.unify_isMarket hd₁ List.mem_cons_self ⟨hown, rfl⟩
    have hfit' := Domain.unify_isMarket hd₁ (List.mem_cons_of_mem _ List.mem_cons_self) ⟨hm, rfl⟩
    exact ⟨hown, hfit.code.symm.trans hfit'.code⟩
  have hmarkets : Domain.markets [x.domain, m.domain, m'.domain] = Domain.markets [x.domain, m'.domain] :=
    Domain.markets_append_congr (Domain.markets_cons_of_isMarket hmask) [m'.domain]
  rw [hx.withMask_withMask h₁ h₂, Domain.unify_congr hmarkets, hd₂]
  rfl

/-- On a term of no market, the market of a mask goes with that of the next mask or not. -/
theorem Built.withMask_remembers {x₁ x₂ : Term} (hx : x.Built) (h₁ : x.withMask m = .ok x₁)
    (h₂ : x.withMask m' = .ok x₂) (hgeneric : x.domain.isGeneric = true) (hm : m.domain.isGeneric = false) :
    x₂.domain = m'.domain ∧ x₁.withMask m' =
      if m'.domain.isGeneric || m'.domain == m.domain then .ok (x₂.inDomain m.domain)
      else .error (.ambiguousDomain [m.domain.code, m'.domain.code]) := by
  constructor
  · obtain ⟨d₂, hd₂, rfl⟩ := hx.withMask_eq_ok h₂
    rw [Domain.unify_congr (Domain.markets_cons_of_isGeneric hgeneric _), Domain.unify_singleton] at hd₂
    exact (Except.ok.inj hd₂).symm
  · rw [hx.withMask_withMask h₁ h₂, Domain.unify_congr (Domain.markets_cons_of_isGeneric hgeneric _),
      Domain.unify_pair hm]
    split <;> rfl

/-- A mask on a term that has one already. The term is then what it would be under the new mask
alone, but in a domain that it has in common with both masks, if there is one. That is the same
term exactly if the old mask brought no market of its own or the market of the new one. On a
term of no market the old mask leaves its market behind, and a mask of another one is refused. -/
theorem mask_replaced {x₁ x₂ : Term} (hx : x.Made) (h₁ : x.withMask m = .ok x₁) (h₂ : x.withMask m' = .ok x₂) :
    x₁.withMask m' = (Domain.unify [x.domain, m.domain, m'.domain]).map x₂.inDomain ∧
    (x.domain.isGeneric = false ∨ m.domain.isGeneric = true → x₁.withMask m' = .ok x₂) ∧
    ((∃ t, x₁.withMask m' = .ok t ∧ (t == x₂) = true) ↔
      x.domain.isGeneric = false ∨ m.domain.isGeneric = true ∨ (m.domain == m'.domain) = true) ∧
    (x.domain.isGeneric = true → m.domain.isGeneric = false →
      (m'.domain.isGeneric = true → x₁.withMask m' = .ok (x₂.inDomain m.domain) ∧ x₂.domain.isGeneric = true) ∧
      (m'.domain.isGeneric = false → m.domain.code ≠ m'.domain.code →
        x₁.withMask m' = .error (.ambiguousDomain [m.domain.code, m'.domain.code]))) := by
  have hx := hx.grown.built
  refine ⟨hx.withMask_withMask h₁ h₂, hx.withMask_forgets h₁ h₂, ?_, fun hgeneric hm => ?_⟩
  · by_cases hforgets : x.domain.isGeneric = false ∨ m.domain.isGeneric = true
    · exact iff_of_true ⟨x₂, hx.withMask_forgets h₁ h₂ hforgets, same_refl x₂⟩ (or_assoc.1 (.inl hforgets))
    · obtain ⟨hgeneric, hm⟩ := not_or.1 hforgets
      rw [Bool.not_eq_false] at hgeneric
      rw [Bool.not_eq_true] at hm
      obtain ⟨hd₂, hsecond⟩ := hx.withMask_remembers h₁ h₂ hgeneric hm
      have hcodes : (m'.domain == m.domain) = (m.domain == m'.domain) :=
        Bool.beq_comm (a := m'.domain.code) (b := m.domain.code)
      rw [hsecond, hgeneric, hm, hcodes]
      cases hsame : m.domain == m'.domain with
      | true =>
        rw [Bool.or_true, if_pos rfl]
        exact iff_of_true ⟨_, rfl, (inDomain_same ..).trans (hd₂ ▸ hsame)⟩ (.inr (.inr rfl))
      | false =>
        refine iff_of_false (fun ⟨t, ht, heq⟩ => ?_) (by decide)
        split at ht
        · obtain rfl := Except.ok.inj ht
          rw [inDomain_same, hd₂, hsame] at heq
          cases heq
        · cases ht
  · obtain ⟨hd₂, hsecond⟩ := hx.withMask_remembers h₁ h₂ hgeneric hm
    refine ⟨fun hm' => ⟨?_, hd₂ ▸ hm'⟩, fun hm' hne => ?_⟩
    · rw [hsecond, hm', Bool.true_or, if_pos rfl]
    · have hdiffer : (m'.domain == m.domain) = false := beq_eq_false_iff_ne (a := m'.domain.code).2 hne.symm
      rw [hsecond, hm', hdiffer]
      rfl

/-! Shares held, of no market, where there is a price in New York or a rate in London. -/

def shares : Term := .ofColumn ⟨"Shares", "held", .float64, .float nan, .generic⟩

/-- Where a column has a value. -/
def present (c : Column) : Term :=
  .mk ⟨.nullCheck true, .filter, .bool, .bool false, 0, c.domain, true⟩ [.ofColumn c] none

theorem present_made (c : Column) (h : c.missing.dtype = c.dtype) (hrole : (ofColumn c).role ≠ .filter)
    (hnull : (ofColumn c).nullCheck true = .ok ⟨present c⟩) : (present c).Made :=
  Made.nullCheck (.ofColumn c h) hrole hnull

theorem shares_made : shares.Made := .ofColumn _ rfl

theorem mask_replaced_twoMarkets :
    (shares.masked (present newYork) (market "US")).withMask (present london) =
      .error (.ambiguousDomain ["US", "GB"]) ∧
    (shares.masked (present newYork) (market "US")).withMask assetExists =
      .ok (shares.masked assetExists (market "US")) := by
  have hother := @mask_replaced shares (present newYork) (present london) _ _ shares_made rfl rfl
  have hnone := @mask_replaced shares (present newYork) assetExists _ _ shares_made rfl rfl
  exact ⟨(hother.2.2.2 rfl rfl).2 rfl (by decide), ((hnone.2.2.2 rfl rfl).1 rfl).1⟩

/-- Filters that can each be put on the shares, but the second not after the first, and a third one
that makes another term after the first. -/
theorem mask_not_forgotten : ∃ us gb every x₁ x₂ x₃ x₄ : Term,
    shares.Made ∧ us.Made ∧ gb.Made ∧ every.Made ∧
    us.role = .filter ∧ gb.role = .filter ∧ every.role = .filter ∧
    shares.withMask us = .ok x₁ ∧ shares.withMask gb = .ok x₂ ∧ shares.withMask every = .ok x₃ ∧
    x₁.withMask gb = .error (.ambiguousDomain ["US", "GB"]) ∧
    x₁.withMask every = .ok x₄ ∧ (x₄ == x₃) = false := by
  refine ⟨present newYork, present london, assetExists, shares.masked (present newYork) (market "US"),
    shares.masked (present london) (market "GB"), shares.masked assetExists .generic,
    (shares.masked assetExists .generic).inDomain (market "US"), shares_made,
    present_made newYork rfl (by decide) rfl, present_made london rfl (by decide) rfl, .assetExists,
    rfl, rfl, rfl, rfl, rfl, rfl, rfl, rfl, ?_⟩
  rw [inDomain_same]
  decide

end Term
end AsOf
