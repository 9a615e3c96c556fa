import AsOf.Graph.Narrow

/-!
# Terms that are the same

`Term.same` compares two terms node by node. It is an equivalence, and what may be asked of a
term without evaluating it has one answer for terms that are the same: the type of its cells,
its missing value, the assets it is bound to.
-/
namespace AsOf

theorem beq_list_comm {α : Type} [BEq α] (h : ∀ a b : α, (a == b) = (b == a)) (xs ys : List α) :
    (xs == ys) = (ys == xs) := by
  induction xs generalizing ys with
  | nil => cases ys <;> rfl
  | cons x xs ih =>
    cases ys with
    | nil => rfl
    | cons y ys => rw [List.cons_beq_cons, List.cons_beq_cons, h, ih]

/-! ## Parts of a term -/

namespace Scalar

theorem same_refl (a : Scalar) : a.same a = true := by
  cases a with
  | float x => exact beq_self_eq_true x.toBits
  | int n => exact beq_self_eq_true n
  | bool b => exact beq_self_eq_true b
  | time t => exact beq_self_eq_true t
  | label l => exact beq_self_eq_true l

theorem same_comm (a b : Scalar) : a.same b = b.same a := by
  cases a <;> cases b <;> first | rfl | exact Bool.beq_comm

theorem toBits_injective {a b : Float} (h : a.toBits = b.toBits) : a = b := by
  obtain ⟨⟨bits, valid⟩⟩ := a
  obtain ⟨⟨bits', valid'⟩⟩ := b
  obtain rfl : bits = bits' := h
  rfl

/-- Values of the same type and bits are one. -/
theorem eq_of_same {a b : Scalar} (h : a.same b = true) : a = b := by
  cases a <;> cases b <;> first
    | exact absurd h Bool.false_ne_true
    | exact congrArg float (toBits_injective (eq_of_beq h))
    | exact congrArg _ (eq_of_beq h)

instance : LawfulBEq Scalar where
  eq_of_beq h := eq_of_same h
  rfl := same_refl _

end Scalar

theorem Column.same_iff {a b : Column} : a.same b = true ↔ a.key = b.key :=
  beq_iff_eq (a := a.key) (b := b.key)

theorem Column.same_comm (a b : Column) : a.same b = b.same a := by
  rw [Bool.eq_iff_iff, same_iff, same_iff]
  exact eq_comm

theorem Column.same_trans {a b c : Column} (h : a.same b = true) (h' : b.same c = true) : a.same c = true :=
  same_iff.2 ((same_iff.1 h).trans (same_iff.1 h'))

instance : ReflBEq Column := ⟨Column.same_iff.2 rfl⟩

theorem Domain.same_trans {a b c : Domain} (h : (a == b) = true) (h' : (b == c) = true) : (a == c) = true := by
  have h : a.code = b.code := eq_of_beq h
  have h' : b.code = c.code := eq_of_beq h'
  exact beq_iff_eq (a := a.code) (b := c.code).2 (h.trans h')

instance : ReflBEq Domain := ⟨beq_self_eq_true (Domain.code _)⟩

theorem RowKernel.same_iff {a b : RowKernel} :
    a.same b = true ↔ a.family = b.family ∧ a.name = b.name ∧ a.params = b.params ∧ a.dtype = b.dtype := by
  show (a.family == b.family && a.name == b.name && a.params == b.params && a.dtype == b.dtype) = true ↔ _
  simp only [Bool.and_eq_true, beq_iff_eq, and_assoc]

theorem RowKernel.same_trans {a b c : RowKernel} (h : a.same b = true) (h' : b.same c = true) : a.same c = true := by
  rw [same_iff] at h h' ⊢
  exact ⟨h.1.trans h'.1, h.2.1.trans h'.2.1, h.2.2.1.trans h'.2.2.1, h.2.2.2.trans h'.2.2.2⟩

theorem RowKernel.same_comm (a b : RowKernel) : a.same b = b.same a := by
  show (a.family == b.family && a.name == b.name && a.params == b.params && a.dtype == b.dtype) =
    (b.family == a.family && b.name == a.name && b.params == a.params && b.dtype == a.dtype)
  rw [beq_list_comm Scalar.same_comm a.params, Bool.beq_comm (a := a.family),
    Bool.beq_comm (a := a.name), Bool.beq_comm (a := a.dtype)]

instance : ReflBEq RowKernel where
  rfl {a} := by
    show (a.family == a.family && a.name == a.name && a.params == a.params && a.dtype == a.dtype) = true
    simp only [beq_self_eq_true, Bool.and_self]

theorem LabelTest.same_comm (a b : LabelTest) : a.same b = b.same a := by
  cases a <;> cases b <;>
    first
    | rfl
    | exact Scalar.same_comm _ _
    | exact beq_list_comm Scalar.same_comm _ _
    | exact Bool.beq_comm

instance : ReflBEq LabelTest where
  rfl {a} := by
    cases a with
    | equal v => exact beq_self_eq_true v
    | notEqual v => exact beq_self_eq_true v
    | isIn vs => exact beq_self_eq_true vs
    | startsWith s => exact beq_self_eq_true s
    | endsWith s => exact beq_self_eq_true s
    | contains s => exact beq_self_eq_true s

theorem LabelTest.eq_of_same {a b : LabelTest} (h : a.same b = true) : a = b := by
  cases a <;> cases b <;> first
    | exact absurd h Bool.false_ne_true
    | exact congrArg _ (eq_of_beq h)

instance : LawfulBEq LabelTest where
  eq_of_beq h := LabelTest.eq_of_same h

namespace Kind

theorem same_refl (a : Kind) : a.same a = true := by
  cases a with
  | assetExists => rfl
  | latest => rfl
  | column c => exact beq_self_eq_true c
  | constant v => exact beq_self_eq_true v
  | expression e => exact beq_self_eq_true e
  | window k => exact beq_self_eq_true k
  | custom k => exact beq_self_eq_true k
  | rank m a g => simp only [same, beq_self_eq_true, Bool.and_self]
  | transform t g => simp only [same, beq_self_eq_true, Bool.and_self]
  | quantiles n => exact beq_self_eq_true n
  | percentileBetween l h => simp only [same, beq_self_eq_true, Bool.and_self]
  | nullCheck b => exact beq_self_eq_true b
  | fillMissing v => exact beq_self_eq_true v
  | staticAssets s => exact beq_self_eq_true s
  | labelTest t => exact beq_self_eq_true t

theorem same_comm (a b : Kind) : a.same b = b.same a := by
  cases a <;> cases b <;>
    first
    | rfl
    | exact Scalar.same_comm _ _
    | exact Column.same_comm _ _
    | exact RowKernel.same_comm _ _
    | exact LabelTest.same_comm _ _
    | exact Bool.beq_comm
    | simp only [same, Bool.beq_comm]

/-- Kinds that are the same are one, but for columns and custom kernels. -/
theorem same_trans {a b c : Kind} (h : a.same b = true) (h' : b.same c = true) : a.same c = true := by
  cases a <;> cases b <;> first
    | exact absurd h Bool.false_ne_true
    | exact h'
    | (simp only [same, Bool.and_eq_true, beq_iff_eq] at h
       simp only [h]
       exact h')
    | (cases c <;> first
        | exact absurd h' Bool.false_ne_true
        | exact Column.same_trans h h'
        | exact RowKernel.same_trans h h')

end Kind

namespace Head

theorem same_refl (a : Head) : a.same a = true := by
  have hk : (a.kind == a.kind) = true := Kind.same_refl a.kind
  rw [same, hk]
  simp only [beq_self_eq_true, Bool.and_self]

theorem same_comm (a b : Head) : a.same b = b.same a := by
  have hk : (a.kind == b.kind) = (b.kind == a.kind) := Kind.same_comm _ _
  have hm : (a.missing == b.missing) = (b.missing == a.missing) := Scalar.same_comm _ _
  have hd : (a.domain == b.domain) = (b.domain == a.domain) :=
    Bool.beq_comm (a := a.domain.code) (b := b.domain.code)
  rw [same, same, hk, hm, hd, Bool.beq_comm (a := a.role), Bool.beq_comm (a := a.dtype),
    Bool.beq_comm (a := a.window), Bool.beq_comm (a := a.windowSafe)]

theorem same_trans {a b c : Head} (h : a.same b = true) (h' : b.same c = true) : a.same c = true := by
  simp only [same, Bool.and_eq_true, beq_iff_eq] at h h' ⊢
  obtain ⟨⟨⟨⟨⟨⟨hk, hr⟩, hd⟩, hm⟩, hw⟩, hs⟩, hdomain⟩ := h
  obtain ⟨⟨⟨⟨⟨⟨hk', hr'⟩, hd'⟩, hm'⟩, hw'⟩, hs'⟩, hdomain'⟩ := h'
  rw [hr, hd, hm, hw, hs]
  exact ⟨⟨⟨⟨⟨⟨Kind.same_trans hk hk', hr'⟩, hd'⟩, hm'⟩, hw'⟩, hs'⟩, Domain.same_trans hdomain hdomain'⟩

theorem of_same {a b : Head} (h : a.same b = true) :
    a.kind.same b.kind = true ∧ a.dtype = b.dtype ∧ a.missing = b.missing := by
  simp only [same, Bool.and_eq_true, beq_iff_eq] at h
  exact ⟨h.1.1.1.1.1.1, h.1.1.1.1.2, h.1.1.1.2⟩

end Head

/-! ## Terms -/

namespace Term

mutual
theorem same_refl : (t : Term) → t.same t = true
  | mk h is m => by
    rw [same, show (h == h) = true from Head.same_refl h, sameAll_refl is, sameMask_refl m]
    rfl

theorem sameAll_refl : (ts : List Term) → sameAll ts ts = true
  | [] => rfl
  | t :: ts => by rw [sameAll, same_refl t, sameAll_refl ts, Bool.and_self]

theorem sameMask_refl : (m : Option Term) → sameMask m m = true
  | none => rfl
  | some t => same_refl t
end

mutual
theorem same_comm : (a b : Term) → a.same b = b.same a
  | mk h is m, mk h' is' m' => by
    rw [same, same, show (h == h') = (h' == h) from Head.same_comm h h', sameAll_comm is is',
      sameMask_comm m m']

theorem sameAll_comm : (as bs : List Term) → sameAll as bs = sameAll bs as
  | [], [] => rfl
  | [], _ :: _ => rfl
  | _ :: _, [] => rfl
  | a :: as, b :: bs => by rw [sameAll, sameAll, same_comm a b, sameAll_comm as bs]

theorem sameMask_comm : (a b : Option Term) → sameMask a b = sameMask b a
  | none, none => rfl
  | none, some _ => rfl
  | some _, none => rfl
  | some a, some b => same_comm a b
end

mutual
theorem same_trans : (a b c : Term) → a.same b = true → b.same c = true → a.same c = true
  | mk h is m, mk h' is' m', mk h'' is'' m'', e, e' => by
    simp only [same, Bool.and_eq_true] at e e' ⊢
    exact ⟨⟨Head.same_trans e.1.1 e'.1.1, sameAll_trans is is' is'' e.1.2 e'.1.2⟩, sameMask_trans m m' m'' e.2 e'.2⟩

theorem sameAll_trans : (as bs cs : List Term) → sameAll as bs = true → sameAll bs cs = true → sameAll as cs = true
  | [], [], [], _, _ => rfl
  | a :: as, b :: bs, c :: cs, e, e' => by
    simp only [sameAll, Bool.and_eq_true] at e e' ⊢
    exact ⟨same_trans a b c e.1 e'.1, sameAll_trans as bs cs e.2 e'.2⟩

theorem sameMask_trans : (a b c : Option Term) → sameMask a b = true → sameMask b c = true → sameMask a c = true
  | none, none, none, _, _ => rfl
  | some a, some b, some c, e, e' => same_trans a b c e e'
end

instance : ReflBEq Term := ⟨same_refl _⟩

theorem head_of_same {a b : Term} (h : a.same b = true) : a.head.same b.head = true := by
  cases a
  cases b
  simp only [same, Bool.and_eq_true] at h
  exact h.1.1

theorem dtype_of_same {a b : Term} (h : a.same b = true) : a.dtype = b.dtype :=
  (Head.of_same (head_of_same h)).2.1

theorem missing_of_same {a b : Term} (h : a.same b = true) : a.missing = b.missing :=
  (Head.of_same (head_of_same h)).2.2

theorem mask_of_same {a b m : Term} (h : a.same b = true) (hm : b.mask = some m) :
    ∃ m', a.mask = some m' ∧ m'.same m = true := by
  obtain ⟨head, inputs, mask⟩ := a
  obtain ⟨head', inputs', mask'⟩ := b
  simp only [same, Bool.and_eq_true] at h
  obtain rfl : mask' = some m := hm
  cases mask with
  | none => exact absurd h.2 Bool.false_ne_true
  | some m' => exact ⟨m', rfl, h.2⟩

/-- Kinds that are the same bind to the same assets. -/
theorem ofKind_of_same {a b : Kind} (h : a.same b = true) (inputs : List Bound) :
    Bound.ofKind inputs a = Bound.ofKind inputs b := by
  cases a <;> cases b <;> first | rfl | exact absurd h Bool.false_ne_true | skip
  · exact congrArg (Bound.ofExpr inputs) (beq_iff_eq.1 h)
  · exact congrArg some (beq_iff_eq.1 h)

mutual
/-- Terms that are the same are bound to the same assets. -/
theorem reduce_of_same : (a b : Term) → a.same b = true → a.reduce = b.reduce
  | mk h is m, mk h' is' m', e => by
    simp only [same, Bool.and_eq_true] at e
    rw [reduce, reduce, reduceAll_of_same is is' e.1.2, reduceMask_of_same m m' e.2,
      ofKind_of_same (Head.of_same e.1.1).1]

theorem reduceAll_of_same : (as bs : List Term) → sameAll as bs = true → reduceAll as = reduceAll bs
  | [], [], _ => rfl
  | a :: as, b :: bs, e => by
    simp only [sameAll, Bool.and_eq_true] at e
    rw [reduceAll, reduceAll, reduce_of_same a b e.1, reduceAll_of_same as bs e.2]

theorem reduceMask_of_same : (a b : Option Term) → sameMask a b = true → reduceMask a = reduceMask b
  | none, none, _ => rfl
  | some a, some b, e => reduce_of_same a b e
end

end Term
end AsOf
