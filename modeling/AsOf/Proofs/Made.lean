import AsOf.Proofs.Built
import AsOf.Proofs.Folded
import AsOf.Term.Windowed

/-!
# Terms that the operations make

`Term.Made` holds of what can be made by the operations that are offered: leaves, masks, and
the operations of factors, filters and classifiers on terms of those roles. What an operation
is given decides of what types its inputs are, and what it makes has the type and the window
that its kind goes with. `Term.Proper` says so of one node, without a look at the terms below.

* `Draft.passes_of_build`: what a draft that is built has passed.
* `Term.Made.drafted`: an induction with one case for all drafts that the operations fill in.
* `Term.Made.proper`: what the operations make is proper.
-/
namespace AsOf

/-! ## Drafts -/

namespace Draft

variable {d : Draft} {t : Term}

/-- The checks of a draft. -/
structure Passes (d : Draft) : Prop where
  role : d.role.accepts d.dtype = true
  window : ∀ minimum, d.kind.minimumWindow? = some minimum → minimum ≤ d.window
  safety : 1 < d.window → ∀ i ∈ d.inputs, i.windowSafe = true
  mask : ∀ m ∈ d.mask, m.role = .filter

theorem passes_of_build (h : d.build = .ok t) : d.Passes := by
  obtain ⟨hrole, -, hwindow, hsafety, hmask, -⟩ := checks_of_build h
  refine ⟨?_, fun minimum hm => ?_, fun hw i hi => ?_, fun m hm => ?_⟩
  · unfold checkRole at hrole
    split at hrole
    · assumption
    · cases hrole
  · simp only [checkWindow, hm] at hwindow
    split at hwindow
    · cases hwindow
    · exact UInt64.not_lt.1 ‹_›
  · unfold checkSafety at hsafety
    rw [if_neg (UInt64.not_le.2 hw)] at hsafety
    split at hsafety
    · cases hsafety
    · rename_i hnone
      simpa using List.find?_eq_none.1 hnone i hi
  · rw [Option.mem_def] at hm
    simp only [checkMask, hm] at hmask
    split at hmask
    · assumption
    · cases hmask

end Draft

/-! ## Made terms -/

/-- The role of what an operator takes. -/
def BinaryOp.takes (op : BinaryOp) : Role := if op.isLogical then .filter else .factor

/-- The role of what an operator takes. -/
def UnaryOp.takes : UnaryOp → Role
  | .not => .filter
  | _ => .factor

/-- The test is one of cells of a type. -/
def LabelTest.Suits : LabelTest → Dtype → Prop
  | .equal v, .categorical | .notEqual v, .categorical => ∃ l, v = .label (some l)
  | .isIn vs, .categorical => ∃ ls : List String, vs = ls.map fun l => .label (some l)
  | .startsWith _, .categorical | .endsWith _, .categorical | .contains _, .categorical => True
  | .equal v, .int64 | .notEqual v, .int64 => ∃ n, v = .int n
  | .isIn vs, .int64 => ∃ ns : List Int64, vs = ns.map .int
  | _, _ => False

namespace Term

/-- What the operations make. -/
inductive Made : Term → Prop
  | assetExists : Made assetExists
  | ofColumn (c : Column) (h : c.missing.dtype = c.dtype) : Made (ofColumn c)
  | latestOfColumn (c : Column) (h : c.missing.dtype = c.dtype) : Made (latestOfColumn c)
  | constant {value : Scalar} {t : Term} (h : Term.constant value = .ok t) : Made t
  | staticAssets {sids : List Sid} {f : Filter} (h : Filter.staticAssets sids = .ok f) : Made f.term
  | withMask {t m t' : Term} (term : Made t) (mask : Made m) (h : t.withMask m = .ok t') : Made t'
  | binary {op : BinaryOp} {x y : Operand} {t : Term} (left : ∀ u, x = .term u → Made u)
      (right : ∀ u, y = .term u → Made u) (leftRole : ∀ u, x = .term u → u.role = op.takes)
      (rightRole : ∀ u, y = .term u → u.role = op.takes) (h : Term.binary op x y = .ok t) : Made t
  | unary {op : UnaryOp} {x t : Term} (operand : Made x) (role : x.role = op.takes) (h : Term.unary op x = .ok t) :
      Made t
  | nullCheck {negate : Bool} {x : Term} {f : Filter} (operand : Made x) (role : x.role ≠ .filter)
      (h : x.nullCheck negate = .ok f) : Made f.term
  | labelTest {x : Classifier} {op : String} {dtype : Dtype} {test : LabelTest} {f : Filter} (operand : Made x.term)
      (suits : test.Suits dtype) (h : x.test op dtype test = .ok f) : Made f.term
  | fillMissing {x f : Factor} {value : Scalar} (operand : Made x.term) (role : x.term.role = .factor)
      (h : x.fillMissing value = .ok f) : Made f.term
  | latest {x f : Factor} (operand : Made x.term) (role : x.term.role = .factor) (h : x.latest = .ok f) : Made f.term
  | rank {x f : Factor} {method : Stats.RankMethod} {ascending : Bool} {s : Factor.Scope} (operand : Made x.term)
      (role : x.term.role = .factor) (mask : ∀ m ∈ s.mask, Made m.term) (groups : ∀ g ∈ s.groups, Made g.term)
      (groupRole : ∀ g ∈ s.groups, g.term.role = .classifier) (h : x.rank method ascending s = .ok f) : Made f.term
  | transform {x f : Factor} {t : Transform} {s : Factor.Scope} (operand : Made x.term)
      (role : x.term.role = .factor) (mask : ∀ m ∈ s.mask, Made m.term) (groups : ∀ g ∈ s.groups, Made g.term)
      (groupRole : ∀ g ∈ s.groups, g.term.role = .classifier) (h : x.transform t s = .ok f) : Made f.term
  | percentileBetween {x : Factor} {low high : Float} {mask : Option Filter} {f : Filter} (operand : Made x.term)
      (role : x.term.role = .factor) (mask' : ∀ m ∈ mask, Made m.term)
      (h : x.percentileBetween low high mask = .ok f) : Made f.term
  | quantiles {x : Factor} {bins : Nat} {mask : Option Filter} {f : Classifier} (operand : Made x.term)
      (role : x.term.role = .factor) (mask' : ∀ m ∈ mask, Made m.term) (h : x.quantiles bins mask = .ok f) :
      Made f.term
  | ofFactors {k : WindowKernel} {xs : List Factor} {window : UInt64} {f : Factor}
      (operands : ∀ x ∈ xs, Made x.term) (roles : ∀ x ∈ xs, x.term.role = .factor) (arity : xs.length = k.arity)
      (numbers : k.dtype = .float64) (h : Factor.windowed k xs window = .ok f) : Made f.term
  | ofFilter {k : WindowKernel} {x f : Filter} {window : UInt64} (operand : Made x.term)
      (role : x.term.role = .filter) (truth : k.dtype = .bool) (other : k ≠ .allPresent)
      (h : Filter.windowed k x window = .ok f) : Made f.term
  | allPresent {x : Term} {window : UInt64} {f : Filter} (operand : Made x) (h : x.allPresent window = .ok f) :
      Made f.term
  | custom {k : RowKernel} {inputs : List Term} {window : UInt64} {mask : Option Filter} {t : Term}
      (operands : ∀ x ∈ inputs, Made x) (mask' : ∀ m ∈ mask, Made m.term)
      (h : Term.custom k inputs window mask = .ok t) : Made t

end Term

/-! ## Proper nodes -/

/-- The type, the window and the types of the inputs that a kind goes with. -/
def Kind.Takes (k : Kind) (dtype : Dtype) (window : UInt64) (inputs : List Dtype) : Prop :=
  match k with
  | .assetExists | .column _ => True
  | .constant value => dtype = value.dtype ∧ inputs = []
  | .staticAssets _ => dtype = .bool ∧ inputs = []
  | .latest => 1 ≤ window ∧ inputs = [dtype]
  | .expression e => dtype = (if e.isBoolean then .bool else .float64) ∧ window = 0 ∧ .categorical ∉ inputs
  | .window k => dtype = k.dtype ∧ 1 ≤ window ∧ (k ≠ .allPresent → .categorical ∉ inputs)
  | .custom k => dtype = k.dtype ∧ 1 ≤ window
  | .rank _ _ grouped | .transform _ grouped => dtype = .float64 ∧ window = 0 ∧
      ∃ value groups, inputs = value :: groups ∧ value ≠ .categorical ∧
        (grouped = true → ∃ g, groups = [g] ∧ Role.classifier.accepts g = true)
  | .quantiles _ => dtype = .int64 ∧ window = 0 ∧ ∃ value, inputs = [value] ∧ value ≠ .categorical
  | .percentileBetween _ _ => dtype = .bool ∧ window = 0 ∧ ∃ value, inputs = [value] ∧ value ≠ .categorical
  | .nullCheck _ => dtype = .bool ∧ window = 0 ∧ ∃ value, inputs = [value]
  | .fillMissing value => dtype = value.dtype ∧ window = 0 ∧ inputs = [dtype]
  | .labelTest test => dtype = .bool ∧ window = 0 ∧ ∃ value, inputs = [value] ∧ test.Suits value

/-- A node whose inputs are of types that its kind takes. -/
structure Term.Proper (t : Term) : Prop where
  role : t.role.accepts t.dtype = true
  missing : t.missing.dtype = t.dtype
  takes : t.kind.Takes t.dtype t.window (t.inputs.map Term.dtype)

theorem Role.accepts_ofDtype (d : Dtype) : (Role.ofDtype d).accepts d = true := by
  cases d <;> rfl

/-- Factors and filters can be read as numbers. -/
theorem Role.ne_categorical {r : Role} {d : Dtype} (h : r.accepts d = true) (hr : r ≠ .classifier) :
    d ≠ .categorical := by
  rintro rfl
  cases r with
  | classifier => exact hr rfl
  | _ => cases h

theorem BinaryOp.takes_ne (op : BinaryOp) : op.takes ≠ .classifier := by
  unfold takes
  split <;> decide

theorem UnaryOp.takes_ne (op : UnaryOp) : op.takes ≠ .classifier := by
  cases op <;> decide

namespace Term

variable {t u : Term}

/-- What a draft builds is proper if the kind takes what the draft gives it. -/
theorem Proper.of_build {d : Draft} (h : d.build = .ok t)
    (hd : d.Passes → d.kind.Takes d.dtype d.window (d.inputs.map Term.dtype)) : t.Proper := by
  have hp := Draft.passes_of_build h
  obtain ⟨domain, rfl, hm⟩ := Draft.build_eq_ok h
  exact ⟨hp.role, hm, hd hp⟩

theorem Proper.ne_categorical (h : t.Proper) (hr : t.role ≠ .classifier) : t.dtype ≠ .categorical :=
  Role.ne_categorical h.role hr

/-! ### Formulas -/

/-- Inputs that can be read as numbers. -/
def Numbers (ts : List Term) : Prop := ∀ u ∈ ts, u.dtype ≠ .categorical

theorem Proper.of_ofExpr {e : Expr} {inputs : List Term} (hn : Numbers inputs) (h : ofExpr e inputs = .ok t) :
    t.Proper := by
  have hnot : Dtype.categorical ∉ inputs.map Term.dtype := fun hmem => by
    obtain ⟨u, hu, hc⟩ := List.mem_map.1 hmem
    exact hn u hu hc
  unfold ofExpr at h
  split at h
  · exact .of_build h fun _ => ⟨(if_pos ‹_›).symm, rfl, hnot⟩
  · exact .of_build h fun _ => ⟨(if_neg ‹_›).symm, rfl, hnot⟩

/-- What is folded out of a proper term can be read as numbers if the term can. -/
theorem Proper.parts (h : t.Proper) (hr : t.role ≠ .classifier) : Parts (·.dtype ≠ .categorical) t where
  whole := h.ne_categorical hr
  inputs e hk u hu hc := by
    have htakes := h.takes
    rw [hk] at htakes
    exact htakes.2.2 (hc ▸ List.mem_map_of_mem hu)

/-! ### Windows -/

/-- A kind that reads windows has one. -/
theorem one_le_window {d : Draft} (hp : d.Passes) {minimum : UInt64} (hm : d.kind.minimumWindow? = some minimum)
    (h1 : 1 ≤ minimum) : 1 ≤ d.window := UInt64.le_trans h1 (hp.window minimum hm)

theorem one_le_minimumWindow (k : WindowKernel) : 1 ≤ k.minimumWindow := by
  unfold WindowKernel.minimumWindow
  split <;> decide

/-- What a kernel of windows takes. -/
theorem window_takes {d : Draft} (hp : d.Passes) {k : WindowKernel} (hk : d.kind = .window k) (hdtype : d.dtype = k.dtype)
    (hn : k ≠ .allPresent → Numbers d.inputs) : d.kind.Takes d.dtype d.window (d.inputs.map Term.dtype) := by
  rw [hk]
  refine ⟨hdtype, one_le_window hp (congrArg Kind.minimumWindow? hk) (one_le_minimumWindow k), fun hall hmem => ?_⟩
  obtain ⟨u, hu, hc⟩ := List.mem_map.1 hmem
  exact hn hall u hu hc

/-! ### Groups -/

/-- The inputs of a scope are the values and, if there are groups, a classifier. -/
theorem scope_takes {x : Factor} {s : Factor.Scope} (role : x.term.role = .factor)
    (hp : ∀ u ∈ s.inputs x, u.Proper) (groupRole : ∀ g ∈ s.groups, g.term.role = .classifier) :
    ∃ value groups, (s.inputs x).map Term.dtype = value :: groups ∧ value ≠ .categorical ∧
      (s.groups.isSome = true → ∃ g, groups = [g] ∧ Role.classifier.accepts g = true) := by
  refine ⟨x.term.dtype, ((s.groups.map Classifier.term).toList).map Term.dtype, rfl,
    (hp _ List.mem_cons_self).ne_categorical (by rw [role]; nofun), fun hsome => ?_⟩
  obtain ⟨g, hgs⟩ := Option.isSome_iff_exists.1 hsome
  refine ⟨g.term.dtype, by rw [hgs]; rfl, ?_⟩
  rw [← groupRole g hgs]
  exact (hp _ (List.mem_cons_of_mem _ (Option.mem_toList.2 (by rw [hgs]; rfl)))).role

/-- A scope reads the values and perhaps their groups. -/
theorem forall_scope_inputs {P : Term → Prop} {s : Factor.Scope} {x : Factor} (hx : P x.term)
    (hg : ∀ g ∈ s.groups, P g.term) : ∀ u ∈ s.inputs x, P u := by
  intro u hu
  rcases List.mem_cons.1 hu with rfl | hu
  · exact hx
  · obtain ⟨g, hgs, rfl⟩ := Option.map_eq_some_iff.1 (Option.mem_toList.1 hu)
    exact hg g hgs

theorem forall_map_term {P : Term → Prop} {mask : Option Filter} (h : ∀ m ∈ mask, P m.term) :
    ∀ m ∈ mask.map Filter.term, P m := by
  intro m hm
  obtain ⟨f, hf, rfl⟩ := Option.map_eq_some_iff.1 hm
  exact h f hf

theorem length_scope_inputs (s : Factor.Scope) (x : Factor) :
    (s.inputs x).length = if s.groups.isSome then 2 else 1 := by
  cases hg : s.groups <;> simp [Factor.Scope.inputs, hg]

/-! ### What the operations fill in -/

end Term

/-- The kind compares the cells of a row, in groups or not. -/
inductive Kind.Scoped : Kind → Bool → Prop
  | rank (method : Stats.RankMethod) (ascending grouped : Bool) : Scoped (.rank method ascending grouped) grouped
  | transform (t : Transform) (grouped : Bool) : Scoped (.transform t grouped) grouped

/-- What the drafts of the operations have in common, those of formulas and of masks apart. -/
structure Draft.Offered (d : Draft) : Prop where
  computed : d.kind.isLoadable = false
  plain : ∀ e, d.kind ≠ .expression e
  takes : (∀ x ∈ d.inputs, x.Proper) → d.Passes → d.kind.Takes d.dtype d.window (d.inputs.map Term.dtype)
  compares : ∀ grouped, d.kind.Scoped grouped →
    d.dtype = .float64 ∧ d.missing = none ∧ d.inputs.length = if grouped then 2 else 1

namespace Term

variable {t : Term}

/-- Induction over what the operations make, with one case for all drafts that they fill in. -/
@[elab_as_elim]
theorem Made.drafted {motive : (t : Term) → t.Made → Prop}
    (assetExists : motive _ .assetExists)
    (ofColumn : ∀ (c : Column) (h : c.missing.dtype = c.dtype), motive _ (.ofColumn c h))
    (latestOfColumn : ∀ (c : Column) (h : c.missing.dtype = c.dtype), motive _ (.latestOfColumn c h))
    (withMask : ∀ {t m t' : Term} (ht : t.Made) (hm : m.Made) (h : t.withMask m = .ok t'), motive t ht →
      motive m hm → motive t' (.withMask ht hm h))
    (binary : ∀ {op : BinaryOp} {x y : Operand} {t : Term} (left : ∀ u, x = .term u → u.Made)
      (right : ∀ u, y = .term u → u.Made) (leftRole : ∀ u, x = .term u → u.role = op.takes)
      (rightRole : ∀ u, y = .term u → u.role = op.takes) (h : Term.binary op x y = .ok t),
      (∀ u hu, motive u (left u hu)) → (∀ u hu, motive u (right u hu)) →
      motive t (.binary left right leftRole rightRole h))
    (unary : ∀ {op : UnaryOp} {x t : Term} (hx : x.Made) (role : x.role = op.takes) (h : Term.unary op x = .ok t),
      motive x hx → motive t (.unary hx role h))
    (draft : ∀ {d : Draft} {t : Term} (ht : t.Made), d.build = .ok t → d.Offered →
      (∀ x ∈ d.inputs, ∃ hx : x.Made, motive x hx) → (∀ m ∈ d.mask, ∃ hm : m.Made, motive m hm) → motive t ht)
    {t : Term} (h : t.Made) : motive t h := by
  have one {x : Term} (hx : x.Made) (ih : motive x hx) : ∀ u ∈ [x], ∃ hu : u.Made, motive u hu :=
    List.forall_mem_singleton.2 ⟨hx, ih⟩
  have numbers {x : Factor} (role : x.term.role = .factor) (hx : ∀ u ∈ [x.term], u.Proper) :
      x.term.dtype ≠ .categorical :=
    (hx _ List.mem_cons_self).ne_categorical (by rw [role]; nofun)
  induction h with
  | assetExists => exact assetExists
  | ofColumn c h => exact ofColumn c h
  | latestOfColumn c h => exact latestOfColumn c h
  | withMask ht hm h iht ihm => exact withMask ht hm h iht ihm
  | binary left right leftRole rightRole h ihl ihr => exact binary left right leftRole rightRole h ihl ihr
  | unary hx role h ih => exact unary hx role h ih
  | constant h => exact draft _ h ⟨rfl, nofun, fun _ _ => ⟨rfl, rfl⟩, nofun⟩ nofun nofun
  | staticAssets h =>
    obtain ⟨t, ht, rfl⟩ := Checked.map_eq_ok.1 h
    exact draft _ ht ⟨rfl, nofun, fun _ _ => ⟨rfl, rfl⟩, nofun⟩ nofun nofun
  | nullCheck hx role h ih =>
    obtain ⟨t, ht, rfl⟩ := Checked.map_eq_ok.1 h
    exact draft _ ht ⟨rfl, nofun, fun _ _ => ⟨rfl, rfl, _, rfl⟩, nofun⟩ (one hx ih) nofun
  | labelTest hx suits h ih =>
    unfold Classifier.test at h
    split at h
    · rename_i hd
      obtain ⟨t, ht, rfl⟩ := Checked.map_eq_ok.1 h
      exact draft _ ht ⟨rfl, nofun, fun _ _ => ⟨rfl, rfl, _, rfl, hd ▸ suits⟩, nofun⟩ (one hx ih) nofun
    · cases h
  | fillMissing hx role h ih =>
    obtain ⟨_, hv, h⟩ := Checked.bind_eq_ok.1 h
    have hv := Block.expect_eq_ok.1 (Checked.mapError_eq_ok.1 hv)
    obtain ⟨t, ht, rfl⟩ := Checked.map_eq_ok.1 h
    exact draft _ ht ⟨rfl, nofun, fun _ _ => ⟨hv.symm, rfl, rfl⟩, nofun⟩ (one hx ih) nofun
  | latest hx role h ih =>
    obtain ⟨t, ht, rfl⟩ := Checked.map_eq_ok.1 h
    exact draft _ ht ⟨rfl, nofun, fun _ _ => ⟨UInt64.le_refl 1, rfl⟩, nofun⟩ (one hx ih) nofun
  | @rank x f method ascending s hx role hm hg groupRole h ih ihm ihg =>
    obtain ⟨t, ht, rfl⟩ := Checked.map_eq_ok.1 h
    refine draft _ ht ⟨rfl, nofun, fun hp _ => ⟨rfl, rfl, scope_takes role hp groupRole⟩, ?_⟩
      (forall_scope_inputs ⟨hx, ih⟩ fun g hgs => ⟨hg g hgs, ihg g hgs⟩)
      (forall_map_term fun m hms => ⟨hm m hms, ihm m hms⟩)
    rintro _ ⟨⟩
    exact ⟨rfl, rfl, length_scope_inputs s x⟩
  | @transform x f kind s hx role hm hg groupRole h ih ihm ihg =>
    obtain ⟨t, ht, rfl⟩ := Checked.map_eq_ok.1 h
    refine draft _ ht ⟨rfl, nofun, fun hp _ => ⟨rfl, rfl, scope_takes role hp groupRole⟩, ?_⟩
      (forall_scope_inputs ⟨hx, ih⟩ fun g hgs => ⟨hg g hgs, ihg g hgs⟩)
      (forall_map_term fun m hms => ⟨hm m hms, ihm m hms⟩)
    rintro _ ⟨⟩
    exact ⟨rfl, rfl, length_scope_inputs s x⟩
  | percentileBetween hx role hm h ih ihm =>
    unfold Factor.percentileBetween at h
    split at h
    · cases h
    · obtain ⟨t, ht, rfl⟩ := Checked.map_eq_ok.1 h
      exact draft _ ht ⟨rfl, nofun, fun hp _ => ⟨rfl, rfl, _, rfl, numbers role hp⟩, nofun⟩ (one hx ih)
        (forall_map_term fun m hms => ⟨hm m hms, ihm m hms⟩)
  | quantiles hx role hm h ih ihm =>
    unfold Factor.quantiles at h
    split at h
    · cases h
    · obtain ⟨t, ht, rfl⟩ := Checked.map_eq_ok.1 h
      exact draft _ ht ⟨rfl, nofun, fun hp _ => ⟨rfl, rfl, _, rfl, numbers role hp⟩, nofun⟩ (one hx ih)
        (forall_map_term fun m hms => ⟨hm m hms, ihm m hms⟩)
  | @ofFactors k xs window f hx roles arity truth h ih =>
    obtain ⟨t, ht, rfl⟩ := Checked.map_eq_ok.1 h
    refine draft _ ht ⟨rfl, nofun, fun hp hd => window_takes hd rfl rfl fun _ => ?_, nofun⟩
      (List.forall_mem_map.2 fun x hxs => ⟨hx x hxs, ih x hxs⟩) nofun
    exact List.forall_mem_map.2 fun x hxs =>
      (hp _ (List.mem_map_of_mem hxs)).ne_categorical (by rw [roles x hxs]; nofun)
  | ofFilter hx role truth other h ih =>
    obtain ⟨t, ht, rfl⟩ := Checked.map_eq_ok.1 h
    refine draft _ ht ⟨rfl, nofun, fun hp hd => window_takes hd rfl rfl fun _ => ?_, nofun⟩ (one hx ih) nofun
    exact List.forall_mem_singleton.2 ((hp _ List.mem_cons_self).ne_categorical (by rw [role]; nofun))
  | allPresent hx h ih =>
    unfold Term.allPresent at h
    split at h
    · cases h
    · obtain ⟨t, ht, rfl⟩ := Checked.map_eq_ok.1 h
      exact draft _ ht ⟨rfl, nofun, fun _ hd => window_takes hd rfl rfl fun hk => absurd rfl hk, nofun⟩ (one hx ih) nofun
  | custom hx hm h ih ihm =>
    unfold Term.custom at h
    split at h
    · cases h
    · exact draft _ h ⟨rfl, nofun, fun _ hd => ⟨rfl, one_le_window hd rfl (by decide)⟩, nofun⟩
        (fun x hxs => ⟨hx x hxs, ih x hxs⟩) (forall_map_term fun m hms => ⟨hm m hms, ihm m hms⟩)

/-- What the operations make is proper. -/
theorem Made.proper (h : t.Made) : t.Proper := by
  induction h using Made.drafted with
  | assetExists => exact ⟨rfl, rfl, trivial⟩
  | ofColumn c h => exact ⟨Role.accepts_ofDtype _, h, trivial⟩
  | latestOfColumn c h => exact ⟨Role.accepts_ofDtype _, h, UInt64.le_refl 1, rfl⟩
  | withMask _ _ h ih _ => exact .of_build h fun _ => ih.takes
  | @binary op x y t _ _ leftRole rightRole h ihl ihr =>
    obtain ⟨e, inputs, ht, hn⟩ := exists_ofExpr (fun u hu => (ihl u hu).parts (leftRole u hu ▸ op.takes_ne))
      (fun u hu => (ihr u hu).parts (rightRole u hu ▸ op.takes_ne)) h
    exact .of_ofExpr hn ht
  | @unary op x t _ role h ih =>
    refine .of_ofExpr (forall_unfolded (x := .term x) fun u hu => ?_) h
    cases hu
    exact ih.parts (role ▸ op.takes_ne)
  | draft _ h ho hi _ => exact .of_build h (ho.takes fun x hx => (hi x hx).2)

end Term
end AsOf
