import AsOf.Proofs.Graph.Reads
import AsOf.Proofs.Made

/-!
# Terms of one session

A term is of one session if nothing in it is computed from a window of several: what it is
on a session then comes from that session alone. Columns, what is filled in them, their
newest rows and the operators of factors make only such terms, and every one of them may be
read through a window of any length.

* `Term.OneSession.of_same`: of two terms that are the same, both are of one session.
* `Term.FromColumns.steady`: what is made of columns is of one session, and safe.
-/
namespace AsOf

namespace Term

variable {t u : Term}

/-- Nothing in the term is computed from a window of several sessions. -/
inductive OneSession : Term → Prop
  | intro {t : Term} (window : t.isLoadable = false → t.window ≤ 1)
      (dependencies : ∀ dep ∈ t.dependencies, OneSession dep) : OneSession t

theorem OneSession.window_le (h : t.OneSession) (hl : t.isLoadable = false) : t.window ≤ 1 := by
  cases h with
  | intro window _ => exact window hl

theorem OneSession.dependency (h : t.OneSession) {dep : Term} (hd : dep ∈ t.dependencies) : dep.OneSession := by
  cases h with
  | intro _ dependencies => exact dependencies dep hd

/-! ## Terms that are the same -/

theorem window_of_same (h : t.same u = true) : t.window = u.window := by
  have h := head_of_same h
  simp only [Head.same, Bool.and_eq_true, beq_iff_eq] at h
  exact h.1.1.2

theorem OneSession.of_same (h : u.OneSession) (hs : t.same u = true) : t.OneSession := by
  induction h generalizing t with
  | intro window dependencies ih =>
    refine .intro (fun hl => ?_) fun dep hd => ?_
    · rw [window_of_same hs]
      exact window (isLoadable_of_same hs ▸ hl)
    · obtain ⟨dep', hd', hsame⟩ := exists_dependency_of_same hs hd
      exact ih dep' hd' hsame

/-! ## What is built -/

theorem OneSession.assetExists : assetExists.OneSession :=
  .intro (fun h => nomatch h) fun _ h => nomatch h

theorem OneSession.of_build {d : Draft} (h : d.build = .ok t) (window : d.window ≤ 1)
    (inputs : ∀ x ∈ d.inputs, x.OneSession) (mask : ∀ m ∈ d.mask, m.OneSession) : t.OneSession := by
  obtain ⟨domain, rfl, -⟩ := Draft.build_eq_ok h
  refine .intro (fun _ => window) fun dep hd => ?_
  by_cases hl : (d.finish domain).isLoadable = true
  · rw [dependencies, readings, if_pos hl] at hd
    cases hd
  · rcases (mem_dependencies (Bool.eq_false_iff.2 hl)).1 hd with hd | rfl
    · exact inputs dep hd
    · cases hm : (d.finish domain).mask with
      | none => exact .assetExists
      | some m => exact mask m hm

/-- A term of one session that may be read through windows, and so may be what its formula reads. -/
structure Steady (t : Term) : Prop where
  oneSession : t.OneSession
  safe : Parts (fun u => u.windowSafe = true) t

/-- What is folded out of a steady term is of one session and safe. -/
theorem Steady.parts (h : t.Steady) : Parts (fun u => u.OneSession ∧ u.windowSafe = true) t where
  whole := ⟨h.oneSession, h.safe.whole⟩
  inputs e hk u hu := by
    have hl : t.isLoadable = false := by
      rw [isLoadable, hk]
      rfl
    exact ⟨h.oneSession.dependency ((mem_dependencies hl).2 (.inl hu)), h.safe.inputs e hk u hu⟩

theorem Steady.of_build {d : Draft} (h : d.build = .ok t) (kind : ∀ e, d.kind ≠ .expression e) (window : d.window ≤ 1)
    (safe : d.windowSafe = true) (inputs : ∀ x ∈ d.inputs, x.Steady) (mask : ∀ m ∈ d.mask, m.Steady) : t.Steady := by
  refine ⟨.of_build h window (fun x hx => (inputs x hx).oneSession) fun m hm => (mask m hm).oneSession, ?_⟩
  obtain ⟨domain, rfl, -⟩ := Draft.build_eq_ok h
  exact ⟨safe, fun e he => absurd he (kind e)⟩

theorem Steady.of_ofExpr {e : Expr} {inputs : List Term} (hi : ∀ u ∈ inputs, u.OneSession ∧ u.windowSafe = true)
    (h : ofExpr e inputs = .ok t) : t.Steady := by
  have rows : (0 : UInt64) ≤ 1 := by decide
  unfold ofExpr at h
  split at h
  · refine ⟨.of_build h rows (fun u hu => (hi u hu).1) nofun, ?_⟩
    obtain ⟨domain, rfl, -⟩ := Draft.build_eq_ok h
    exact ⟨rfl, fun _ _ u hu => (hi u hu).2⟩
  · refine ⟨.of_build h rows (fun u hu => (hi u hu).1) nofun, ?_⟩
    obtain ⟨domain, rfl, -⟩ := Draft.build_eq_ok h
    exact ⟨List.all_eq_true.2 fun u hu => (hi u hu).2, fun _ _ u hu => (hi u hu).2⟩

/-! ## What is made of columns -/

/-- Terms made of columns by their newest rows, by filling and by what factors offer. -/
inductive FromColumns : Term → Prop
  | ofColumn (c : Column) : FromColumns (ofColumn c)
  | latestOfColumn (c : Column) : FromColumns (latestOfColumn c)
  | latest {x f : Factor} (operand : FromColumns x.term) (h : x.latest = .ok f) : FromColumns f.term
  | fillMissing {x f : Factor} {value : Scalar} (operand : FromColumns x.term) (h : x.fillMissing value = .ok f) :
      FromColumns f.term
  | unary {op : UnaryOp} {x t : Term} (operand : FromColumns x) (h : Term.unary op x = .ok t) : FromColumns t
  | binary {op : BinaryOp} {x y : Operand} {t : Term} (left : ∀ u, x = .term u → FromColumns u)
      (right : ∀ u, y = .term u → FromColumns u) (h : Term.binary op x y = .ok t) : FromColumns t
  | nullCheck {negate : Bool} {x : Term} {f : Filter} (operand : FromColumns x) (h : x.nullCheck negate = .ok f) :
      FromColumns f.term
  | rank {x f : Factor} {method : Stats.RankMethod} {ascending : Bool} {s : Factor.Scope}
      (operand : FromColumns x.term) (mask : ∀ m ∈ s.mask, FromColumns m.term)
      (groups : ∀ g ∈ s.groups, FromColumns g.term) (h : x.rank method ascending s = .ok f) : FromColumns f.term
  | transform {x f : Factor} {kind : Transform} {s : Factor.Scope} (operand : FromColumns x.term)
      (mask : ∀ m ∈ s.mask, FromColumns m.term) (groups : ∀ g ∈ s.groups, FromColumns g.term)
      (h : x.transform kind s = .ok f) : FromColumns f.term
  | percentileBetween {x : Factor} {low high : Float} {mask : Option Filter} {f : Filter}
      (operand : FromColumns x.term) (mask' : ∀ m ∈ mask, FromColumns m.term)
      (h : x.percentileBetween low high mask = .ok f) : FromColumns f.term
  | quantiles {x : Factor} {bins : Nat} {mask : Option Filter} {f : Classifier} (operand : FromColumns x.term)
      (mask' : ∀ m ∈ mask, FromColumns m.term) (h : x.quantiles bins mask = .ok f) : FromColumns f.term

theorem FromColumns.steady (h : t.FromColumns) : t.Steady := by
  have rows : (0 : UInt64) ≤ 1 := by decide
  have one {x : Term} (hx : x.Steady) : ∀ u ∈ [x], u.Steady := fun u hu => List.mem_singleton.1 hu ▸ hx
  have inherited {x : Term} (hx : x.Steady) : [x].all Term.windowSafe = true :=
    List.all_eq_true.2 fun u hu => (one hx u hu).safe.whole
  have column (c : Column) : (Term.ofColumn c).OneSession := .intro (fun h => nomatch h) fun _ h => nomatch h
  induction h with
  | ofColumn c => exact ⟨column c, rfl, nofun⟩
  | latestOfColumn c =>
    refine ⟨.intro (fun _ => UInt64.le_refl 1) fun dep hd => ?_, rfl, nofun⟩
    rcases (mem_dependencies rfl).1 hd with hd | rfl
    · exact List.mem_singleton.1 hd ▸ column c
    · exact .assetExists
  | latest operand h ih =>
    obtain ⟨t, ht, rfl⟩ := Checked.map_eq_ok.1 h
    exact .of_build ht nofun (UInt64.le_refl 1) (inherited ih) (one ih) nofun
  | fillMissing operand h ih =>
    obtain ⟨_, -, h⟩ := Checked.bind_eq_ok.1 h
    obtain ⟨t, ht, rfl⟩ := Checked.map_eq_ok.1 h
    exact .of_build ht nofun rows (inherited ih) (one ih) nofun
  | @unary op x t operand h ih =>
    refine .of_ofExpr (forall_unfolded (x := .term x) fun u hu => ?_) h
    cases hu
    exact ih.parts
  | binary left right h ihl ihr =>
    obtain ⟨e, inputs, ht, hi⟩ := exists_ofExpr (fun u hu => (ihl u hu).parts) (fun u hu => (ihr u hu).parts) h
    exact .of_ofExpr hi ht
  | nullCheck operand h ih =>
    obtain ⟨t, ht, rfl⟩ := Checked.map_eq_ok.1 h
    exact .of_build ht nofun rows rfl (one ih) nofun
  | rank operand mask groups h ih ihm ihg =>
    obtain ⟨t, ht, rfl⟩ := Checked.map_eq_ok.1 h
    exact .of_build ht nofun rows rfl (forall_scope_inputs ih ihg) (forall_map_term ihm)
  | transform operand mask groups h ih ihm ihg =>
    obtain ⟨t, ht, rfl⟩ := Checked.map_eq_ok.1 h
    exact .of_build ht nofun rows rfl (forall_scope_inputs ih ihg) (forall_map_term ihm)
  | percentileBetween operand mask' h ih ihm =>
    unfold Factor.percentileBetween at h
    split at h
    · cases h
    · obtain ⟨t, ht, rfl⟩ := Checked.map_eq_ok.1 h
      exact .of_build ht nofun rows rfl (one ih) (forall_map_term ihm)
  | quantiles operand mask' h ih ihm =>
    unfold Factor.quantiles at h
    split at h
    · cases h
    · obtain ⟨t, ht, rfl⟩ := Checked.map_eq_ok.1 h
      exact .of_build ht nofun rows rfl (one ih) (forall_map_term ihm)

end Term
end AsOf
