import AsOf.Proofs.Built
import AsOf.Proofs.Evaluate.Kinds
import AsOf.Proofs.Graph.Same
import AsOf.Proofs.Number
import AsOf.Proofs.Shown

/-!
# Formulas folded into one

An operator on terms does not make a node that reads them: it folds their formulas into one,
over their inputs merged, and the nodes that it takes apart are not computed. A node keeps
what its formula yields to its mask; a folded one has no mask of its own to keep to.

* `merge_spec`: where the inputs of two formulas go.
* `Term.Operated.ofFormula`: what operators make, as long as no mask is put on it.
* `Term.fold_keeps_values`: a folded formula has the values of its operator, applied to what
  the operands are as nodes of their own.
* `Term.binary_withMask`: a mask on a formula that is folded is lost.
-/
namespace AsOf

/-! ## Merging -/

theorem getElem?_of_isPrefix {α : Type} {xs ys : List α} (h : xs <+: ys) {i : Nat} (hi : i < xs.length) :
    ys[i]? = xs[i]? := by
  obtain ⟨rest, rfl⟩ := h
  exact List.getElem?_append_left hi

/-- Merging adds to the left, and says of each item on the right where an equal one is. -/
theorem merge_spec {α : Type} {eq : α → α → Bool} (hrefl : ∀ x, eq x x = true) (left right : List α) :
    left <+: (merge eq left right).1 ∧ (∀ x ∈ (merge eq left right).1, x ∈ left ∨ x ∈ right) ∧
      List.Forall₂ (fun k x => ∃ y, (merge eq left right).1[k]? = some y ∧ eq y x = true)
        (merge eq left right).2 right := by
  induction right generalizing left with
  | nil => exact ⟨List.prefix_rfl, fun x hx => .inl hx, .nil⟩
  | cons x right ih =>
    rw [merge]
    cases hp : position? eq left x with
    | some i =>
      obtain ⟨hpre, hmem, hpos⟩ := ih left
      obtain ⟨hi, hx, -⟩ := List.findIdx?_eq_some_iff_getElem.1 hp
      refine ⟨hpre, fun y hy => (hmem y hy).imp_right (List.mem_cons_of_mem _), .cons ⟨left[i], ?_, hx⟩ hpos⟩
      rw [getElem?_of_isPrefix hpre hi, List.getElem?_eq_getElem hi]
    | none =>
      obtain ⟨hpre, hmem, hpos⟩ := ih (left ++ [x])
      refine ⟨(List.prefix_append left [x]).trans hpre, fun y hy => ?_, .cons ⟨x, ?_, hrefl x⟩ hpos⟩
      · rcases hmem y hy with hy | hy
        · rcases List.mem_append.1 hy with hy | hy
          · exact .inl hy
          · exact .inr (List.mem_singleton.1 hy ▸ List.mem_cons_self)
        · exact .inr (List.mem_cons_of_mem _ hy)
      · rw [getElem?_of_isPrefix hpre (by simp), List.getElem?_concat_length]

/-! ## Formulas -/

namespace Expr

/-- A formula depends on the inputs that it names. -/
theorem evalCell_congr {e : Expr} {f g : Nat → Float} (h : ∀ i < e.arity, f i = g i) : e.evalCell f = e.evalCell g := by
  induction e with
  | input i => exact h i (Nat.lt_succ_self i)
  | const c => rfl
  | unary op e ih => exact congrArg op.apply (ih h)
  | binary op a b iha ihb =>
    exact congrArg₂ op.apply (iha fun i hi => h i (Nat.lt_of_lt_of_le hi (Nat.le_max_left ..)))
      (ihb fun i hi => h i (Nat.lt_of_lt_of_le hi (Nat.le_max_right ..)))

theorem evalCell_remap (e : Expr) (table : List Nat) (f : Nat → Float) :
    (e.remap table).evalCell f = e.evalCell fun i => f (table.getD i i) := by
  induction e with
  | input i => rfl
  | const c => rfl
  | unary op e ih => exact congrArg op.apply ih
  | binary op a b iha ihb => exact congrArg₂ op.apply iha ihb

theorem arity_remap {e : Expr} {table : List Nat} {n : Nat} (h : ∀ i < e.arity, table.getD i i < n) :
    (e.remap table).arity ≤ n := by
  induction e with
  | input i => exact h i (Nat.lt_succ_self i)
  | const c => exact Nat.zero_le n
  | unary op e ih => exact ih h
  | binary op a b iha ihb =>
    exact Nat.max_le.2 ⟨iha fun i hi => h i (Nat.lt_of_lt_of_le hi (Nat.le_max_left ..)),
      ihb fun i hi => h i (Nat.lt_of_lt_of_le hi (Nat.le_max_right ..))⟩

end Expr

namespace Term

/-! ## What operators make -/

/-- Whether the inputs of two operands are few enough for one formula. -/
def Fits (op : BinaryOp) (x y : Operand) : Prop := (join op x.unfolded y.unfolded).2.length ≤ maxInputs

/-- Terms of any kind but formulas, under any masks, and what operators make. What is folded
into a formula must be such a term, so no mask was put on it if it is a formula itself. -/
inductive Operated : Term → Prop
  | leaf (t : Term) (h : ∀ e, t.kind ≠ .expression e) : Operated t
  | binary {op : BinaryOp} {x y : Operand} {t : Term} (left : Fits op x y → ∀ u, x = .term u → Operated u)
      (right : Fits op x y → ∀ u, y = .term u → Operated u) (h : Term.binary op x y = .ok t) : Operated t
  | unary {op : UnaryOp} {x t : Term} (operand : Operated x) (h : Term.unary op x = .ok t) : Operated t

/-- A term that is a formula of its inputs in every cell. -/
structure OfFormula (t : Term) (e : Expr) : Prop where
  kind : t.kind = .expression e
  mask : t.mask = none
  arity : e.arity ≤ t.inputs.length
  dtype : t.dtype = if e.isBoolean then .bool else .float64
  missing : t.missing = if e.isBoolean then .bool false else .float nan

theorem ofExpr_eq_ok {e : Expr} {inputs : List Term} {t : Term} (h : ofExpr e inputs = .ok t)
    (ha : e.arity ≤ inputs.length) : t.inputs = inputs ∧ t.OfFormula e := by
  unfold ofExpr at h
  by_cases hb : e.isBoolean = true
  · rw [if_pos hb] at h
    obtain ⟨domain, rfl, -⟩ := Draft.build_eq_ok h
    exact ⟨rfl, rfl, rfl, ha, (if_pos hb).symm, (if_pos hb).symm⟩
  · rw [if_neg hb] at h
    obtain ⟨domain, rfl, -⟩ := Draft.build_eq_ok h
    exact ⟨rfl, rfl, rfl, ha, (if_neg hb).symm, (if_neg hb).symm⟩

/-- The inputs of two formulas, merged, are enough for both under an operator. -/
theorem arity_join (op : BinaryOp) {left right : Expr × List Term} (hl : left.1.arity ≤ left.2.length)
    (hr : right.1.arity ≤ right.2.length) : (join op left right).1.arity ≤ (join op left right).2.length := by
  obtain ⟨hpre, -, hpos⟩ := merge_spec same_refl left.2 right.2
  refine Nat.max_le.2 ⟨Nat.le_trans hl hpre.length_le, Expr.arity_remap fun i hi => ?_⟩
  obtain ⟨k, hk, u, hu, -⟩ := Checked.getElem?_left hpos (List.getElem?_eq_getElem (Nat.lt_of_lt_of_le hi hr))
  rw [List.getD_eq_getElem?_getD, hk]
  exact (List.getElem?_eq_some_iff.1 hu).1

theorem Operand.unfolded_formula {u : Term} {e : Expr} (hk : u.kind = .expression e) :
    (Operand.term u).unfolded = (e, u.inputs) := by
  simp only [unfolded, hk]

theorem Operand.unfolded_leaf {u : Term} (h : ∀ e, u.kind ≠ .expression e) :
    (Operand.term u).unfolded = (.input 0, [u]) := by
  cases hk : u.kind with
  | expression e => exact absurd hk (h e)
  | _ => simp only [unfolded, hk]

theorem Operand.arity_unfolded {x : Operand} (h : ∀ u, x = .term u → ∀ e, u.kind = .expression e → u.OfFormula e) :
    x.unfolded.1.arity ≤ x.unfolded.2.length := by
  cases x with
  | const x => exact Nat.zero_le _
  | term u =>
    by_cases hk : ∃ e, u.kind = .expression e
    · obtain ⟨e, hk⟩ := hk
      rw [unfolded_formula hk]
      exact (h u rfl e hk).arity
    · rw [unfolded_leaf (not_exists.1 hk)]
      exact Nat.le_refl 1

theorem Operand.arity_asInput (x : Operand) : x.asInput.1.arity ≤ x.asInput.2.length := by
  cases x with
  | const x => exact Nat.zero_le _
  | term u => exact Nat.le_refl 1

theorem binary_of_fits {op : BinaryOp} {x y : Operand} (h : Fits op x y) :
    Term.binary op x y = ofExpr (join op x.unfolded y.unfolded).1 (join op x.unfolded y.unfolded).2 := if_pos h

/-- An operator makes a term of the operands' formulas, or of the operands as inputs. -/
theorem binary_eq_ok {op : BinaryOp} {x y : Operand} {t : Term} (h : Term.binary op x y = .ok t) :
    (Fits op x y ∧ ∃ p, p = join op x.unfolded y.unfolded ∧ ofExpr p.1 p.2 = .ok t) ∨
      ∃ p, p = join op x.asInput y.asInput ∧ ofExpr p.1 p.2 = .ok t := by
  by_cases hfits : Fits op x y
  · exact .inl ⟨hfits, _, rfl, (binary_of_fits hfits).symm.trans h⟩
  · exact .inr ⟨_, rfl, (show Term.binary op x y = _ from if_neg hfits).symm.trans h⟩

/-- The term has a property, and if it is a formula, so does what the formula reads. -/
structure Parts (P : Term → Prop) (t : Term) : Prop where
  whole : P t
  inputs : ∀ e, t.kind = .expression e → ∀ u ∈ t.inputs, P u

theorem forall_unfolded {P : Term → Prop} {x : Operand} (h : ∀ u, x = .term u → Parts P u) :
    ∀ v ∈ x.unfolded.2, P v := by
  cases x with
  | const x => exact nofun
  | term u =>
    by_cases hk : ∃ e, u.kind = .expression e
    · obtain ⟨e, hk⟩ := hk
      rw [Operand.unfolded_formula hk]
      exact (h u rfl).inputs e hk
    · rw [Operand.unfolded_leaf (not_exists.1 hk)]
      exact fun v hv => List.mem_singleton.1 hv ▸ (h u rfl).whole

theorem forall_asInput {P : Term → Prop} {x : Operand} (h : ∀ u, x = .term u → P u) : ∀ v ∈ x.asInput.2, P v := by
  cases x with
  | const x => exact nofun
  | term u => exact fun v hv => List.mem_singleton.1 hv ▸ h u rfl

theorem forall_join {P : Term → Prop} (op : BinaryOp) {left right : Expr × List Term} (hl : ∀ u ∈ left.2, P u)
    (hr : ∀ u ∈ right.2, P u) : ∀ u ∈ (join op left right).2, P u := fun u hu =>
  ((merge_spec same_refl left.2 right.2).2.1 u hu).elim (hl u) (hr u)

/-- What an operator makes is a formula over parts of the operands. -/
theorem exists_ofExpr {P : Term → Prop} {op : BinaryOp} {x y : Operand} {t : Term}
    (hx : ∀ u, x = .term u → Parts P u) (hy : ∀ u, y = .term u → Parts P u) (h : Term.binary op x y = .ok t) :
    ∃ e inputs, ofExpr e inputs = .ok t ∧ ∀ u ∈ inputs, P u := by
  rcases binary_eq_ok h with ⟨-, _, rfl, ht⟩ | ⟨_, rfl, ht⟩
  · exact ⟨_, _, ht, forall_join op (forall_unfolded hx) (forall_unfolded hy)⟩
  · exact ⟨_, _, ht, forall_join op (forall_asInput fun u hu => (hx u hu).whole)
      (forall_asInput fun u hu => (hy u hu).whole)⟩

/-- What operators make is the term of a formula, without a mask. -/
theorem Operated.ofFormula {t : Term} (h : t.Operated) : ∀ e, t.kind = .expression e → t.OfFormula e := by
  -- a term is built of one formula, the one of its kind
  have built {t : Term} {e e' : Expr} {inputs : List Term} (ht : ofExpr e' inputs = .ok t)
      (ha : e'.arity ≤ inputs.length) (hk : t.kind = .expression e) : t.OfFormula e := by
    obtain ⟨-, hf⟩ := ofExpr_eq_ok ht ha
    obtain rfl : e' = e := Kind.expression.inj (hf.kind.symm.trans hk)
    exact hf
  induction h with
  | leaf t h => exact fun e hk => absurd hk (h e)
  | binary left right h ihl ihr =>
    intro e hk
    rcases binary_eq_ok h with ⟨hfits, _, rfl, ht⟩ | ⟨_, rfl, ht⟩
    · exact built ht (arity_join _ (Operand.arity_unfolded (ihl hfits)) (Operand.arity_unfolded (ihr hfits))) hk
    · exact built ht (arity_join _ (Operand.arity_asInput _) (Operand.arity_asInput _)) hk
  | @unary op x t operand h ih =>
    intro e hk
    exact built h (Operand.arity_unfolded (x := .term x) fun u hu => by cases hu; exact ih) hk

/-! ## Values -/

/-- Blocks for terms over a context; terms that are the same have the same one. -/
structure Valued (ctx : Context) (val : Term → Block) : Prop where
  mask : ctx.mask.shape = ctx.shape
  shape : ∀ t, (val t).shape = ctx.shape
  same : ∀ t u, t.same u = true → val t = val u

/-- The inputs of a term. -/
def given (val : Term → Block) (t : Term) : List Input := t.inputs.map fun u => .block (val u)

/-- The number that a term has in a cell. -/
def numberIn (val : Term → Block) (i j : Nat) (t : Term) : Float :=
  (((val t).get? i j).map (Scalar.number t.missing)).getD nan

/-- The number that an operand has in a cell. -/
def Operand.numberIn (val : Term → Block) (i j : Nat) : Operand → Float
  | const x => (Param.ofFloat x).toFloat
  | term t => t.numberIn val i j

/-- What operators made holds what its own node comes to. -/
structure Stands (ctx : Context) (val : Term → Block) (t : Term) : Prop where
  operated : t.Operated
  node : ∀ e, t.kind = .expression e → evaluate t (t.given val) ctx = .ok (val t)

/-- An operand has numbers: it is no label. -/
def Operand.Plain (val : Term → Block) (x : Operand) : Prop := ∀ u, x = .term u → (val u).dtype ≠ .categorical

variable {ctx : Context} {val : Term → Block}

/-- The numbers that the inputs of a formula have in a cell. -/
def numbersIn (val : Term → Block) (i j : Nat) (ts : List Term) (k : Nat) : Float :=
  (ts[k]?.map (numberIn val i j)).getD nan

theorem get?_ofFloats (g : Grid Float) (dtype : Dtype) (i j : Nat) :
    (Evaluate.ofFloats g dtype).get? i j = (g.get? i j).map (floatCell dtype) := by
  have hfloats : (Block.floats g).get? i j = (g.get? i j).map .float := rfl
  cases dtype with
  | bool =>
    show ((g.map isTrue).get? i j).map Scalar.bool = _
    rw [Grid.get?_map, Option.map_map]
    rfl
  | _ => exact hfloats

/-- The grids of numbers that a formula is computed of, cell by cell. -/
theorem numbersIn_eq (t : Term) (val : Term → Block) (i j k : Nat) :
    ((Evaluate.numberGrids t ((t.inputs.map val).map Block.cells))[k]?.bind (·.get? i j)).getD nan =
      numbersIn val i j t.inputs k := by
  rw [numbersIn, Evaluate.getElem?_numberGrids, List.map_map, List.getElem?_map]
  cases hk : t.inputs[k]? with
  | none => rfl
  | some u =>
    have hmissing : t.missingOf k = u.missing := by
      unfold missingOf
      rw [hk]
      rfl
    show (((val u).cells.map (Scalar.number (t.missingOf k))).get? i j).getD nan = u.numberIn val i j
    rw [hmissing, Grid.get?_map, Block.get?_cells]
    rfl

/-- The evaluation of a formula makes its values, where no input is a label. -/
theorem evaluate_formula {t : Term} {e : Expr} (hf : t.OfFormula e) (hv : Valued ctx val) :
    ((∀ u ∈ t.inputs, (val u).dtype ≠ .categorical) → ∃ out, evaluate t (t.given val) ctx = .ok out) ∧
    ∀ out, evaluate t (t.given val) ctx = .ok out → (∀ u ∈ t.inputs, (val u).dtype ≠ .categorical) ∧
      ∀ i j, ctx.mask.get? i j = some true →
        out.get? i j = some (floatCell t.dtype (e.evalCell (numbersIn val i j t.inputs))) := by
  let bs := t.inputs.map val
  have hshape : ∀ b ∈ bs, b.shape = ctx.shape := List.forall_mem_map.2 fun u _ => hv.shape u
  have hblocks : Evaluate.blocks t ctx.shape (t.given val) = .ok bs :=
    Evaluate.blocks_eq_ok.2 ⟨by rw [given, List.map_map]; rfl, hshape⟩
  have hu : Evaluate.unmasked t (t.given val) ctx = Evaluate.numbersAll t bs >>= fun gs =>
      .ok (Evaluate.ofFloats (e.eval gs ctx.shape) t.dtype) := by
    rw [Evaluate.unmasked_expression hf.kind, hblocks]
    rfl
  let grids := Evaluate.numberGrids t (bs.map Block.cells)
  obtain ⟨hes, hev⟩ := e.get?_eval (Evaluate.shape_numberGrids t hshape)
  obtain ⟨hos, hov, -⟩ := Evaluate.ofFloats_spec (e.eval grids ctx.shape) t.dtype
  have htype : t.missing.dtype = (Evaluate.ofFloats (e.eval grids ctx.shape) t.dtype).dtype := by
    rw [hf.missing, hf.dtype]
    split <;> rfl
  have hnumbers (hplain : ∀ u ∈ t.inputs, (val u).dtype ≠ .categorical) : Evaluate.unmasked t (t.given val) ctx =
      .ok (Evaluate.ofFloats (e.eval grids ctx.shape) t.dtype) := by
    rw [hu, Evaluate.numbersAll_eq t (List.forall_mem_map.2 hplain)]
    rfl
  have hmade (hplain : ∀ u ∈ t.inputs, (val u).dtype ≠ .categorical) := Evaluate.evaluate_of_unmasked hv.mask
    (List.length_map _) (hnumbers hplain) (hos.trans hes) htype hov
  refine ⟨fun hplain => (hmade hplain).imp fun _ h => h.1, fun out hout => ?_⟩
  obtain ⟨-, -, whole, hwhole, -, -⟩ := Evaluate.evaluate_eq_ok.1 hout
  have hplain : ∀ u ∈ t.inputs, (val u).dtype ≠ .categorical := by
    intro u hmem hlabels
    obtain ⟨err, he⟩ := Evaluate.numbersAll_eq_error t ⟨val u, List.mem_map_of_mem hmem, hlabels⟩
    rw [hu, he] at hwhole
    cases hwhole
  refine ⟨hplain, fun i j hij => ?_⟩
  obtain ⟨out', hout', -, -, -, -, hcells⟩ := hmade hplain
  obtain rfl := Except.ok.inj (hout.symm.trans hout')
  obtain ⟨hi, hj⟩ := Grid.lt_of_get? hij
  have hm := Grid.shape_eq.1 hv.mask
  have hcell := hev i (hi.trans_eq hm.1) j (hj.trans_eq hm.2)
  rw [Block.get?_whereMask (hv.mask.trans (hos.trans hes).symm) hcells hij, if_pos rfl, get?_ofFloats, hcell]
  exact congrArg (fun f => some (floatCell t.dtype (e.evalCell f))) (funext fun k => numbersIn_eq t val i j k)

/-! ## Folding -/

/-- A formula over its inputs comes to the given number in every cell that takes part. -/
structure Folds (ctx : Context) (val : Term → Block) (p : Expr × List Term) (number : Nat → Nat → Float) : Prop where
  arity : p.1.arity ≤ p.2.length
  plain : ∀ u ∈ p.2, (val u).dtype ≠ .categorical
  value : ∀ i j, ctx.mask.get? i j = some true → p.1.evalCell (numbersIn val i j p.2) = number i j

theorem folds_asInput {x : Operand} (hx : x.Plain val) :
    Folds ctx val x.asInput (fun i j => x.numberIn val i j) where
  arity := x.arity_asInput
  plain u hu := by
    cases x with
    | const x => cases hu
    | term t =>
      obtain rfl := List.mem_singleton.1 hu
      exact hx u rfl
  value i j _ := by cases x <;> rfl

/-- The number of what a formula yields is what it yields. -/
theorem number_floatCell {t : Term} {e : Expr} (hf : t.OfFormula e) (inputs : Nat → Float) :
    Scalar.number t.missing (floatCell t.dtype (e.evalCell inputs)) = e.evalCell inputs := by
  rw [hf.dtype, hf.missing]
  by_cases hb : e.isBoolean = true
  · rw [if_pos hb, if_pos hb]
    exact (Expr.evalCell_of_isBoolean hb inputs).symm
  · rw [if_neg hb, if_neg hb]
    rfl

/-- An operand's formula comes to what the operand is as a node of its own. -/
theorem folds_unfolded (hv : Valued ctx val) {x : Operand} (hplain : x.Plain val)
    (hx : ∀ u, x = .term u → Stands ctx val u) :
    Folds ctx val x.unfolded (fun i j => x.numberIn val i j) := by
  cases x with
  | const x => exact ⟨Nat.zero_le _, nofun, fun _ _ _ => rfl⟩
  | term u =>
    obtain ⟨hop, hnode⟩ := hx u rfl
    by_cases hk : ∃ e, u.kind = .expression e
    · obtain ⟨e, hk⟩ := hk
      have hf := hop.ofFormula e hk
      obtain ⟨hplain, hvalue⟩ := (evaluate_formula hf hv).2 _ (hnode e hk)
      rw [Operand.unfolded_formula hk]
      refine ⟨hf.arity, hplain, fun i j hij => ?_⟩
      show _ = (((val u).get? i j).map (Scalar.number u.missing)).getD nan
      rw [hvalue i j hij]
      exact (number_floatCell hf _).symm
    · have hleaf := Operand.unfolded_leaf (not_exists.1 hk)
      rw [hleaf]
      exact folds_asInput hplain

theorem numberIn_of_same (hv : Valued ctx val) {u u' : Term} (h : u.same u' = true) (i j : Nat) :
    u.numberIn val i j = u'.numberIn val i j := by
  rw [numberIn, numberIn, hv.same u u' h, missing_of_same h]

theorem folds_unary {op : UnaryOp} {p : Expr × List Term} {number : Nat → Nat → Float} (h : Folds ctx val p number) :
    Folds ctx val (.unary op p.1, p.2) fun i j => op.apply (number i j) :=
  ⟨h.arity, h.plain, fun i j hij => congrArg op.apply (h.value i j hij)⟩

/-- Two formulas over their merged inputs come to what they come to over their own. -/
theorem folds_join (hv : Valued ctx val) {op : BinaryOp} {p q : Expr × List Term} {number number' : Nat → Nat → Float}
    (hp : Folds ctx val p number) (hq : Folds ctx val q number') :
    Folds ctx val (join op p q) fun i j => op.apply (number i j) (number' i j) where
  arity := arity_join op hp.arity hq.arity
  plain u hu := ((merge_spec same_refl p.2 q.2).2.1 u hu).elim (hp.plain u) (hq.plain u)
  value i j hij := by
    obtain ⟨hpre, -, hpos⟩ := merge_spec same_refl p.2 q.2
    have hleft : p.1.evalCell (numbersIn val i j (merge same p.2 q.2).1) = number i j := by
      rw [← hp.value i j hij]
      refine Expr.evalCell_congr fun k hk => ?_
      rw [numbersIn, numbersIn, getElem?_of_isPrefix hpre (Nat.lt_of_lt_of_le hk hp.arity)]
    have hright : (q.1.remap (merge same p.2 q.2).2).evalCell (numbersIn val i j (merge same p.2 q.2).1) =
        number' i j := by
      rw [← hq.value i j hij, Expr.evalCell_remap]
      refine Expr.evalCell_congr fun k hk => ?_
      have hright : q.2[k]? = some _ := List.getElem?_eq_getElem (Nat.lt_of_lt_of_le hk hq.arity)
      obtain ⟨m, hm, u, hu, hsame⟩ := Checked.getElem?_left hpos hright
      rw [List.getD_eq_getElem?_getD, hm, Option.getD_some, numbersIn, numbersIn, hu, hright]
      exact numberIn_of_same hv hsame i j
    exact congrArg₂ op.apply hleft hright

/-- A term of a folded formula has its values. -/
theorem Folds.term {p : Expr × List Term} {number : Nat → Nat → Float} (h : Folds ctx val p number)
    (hv : Valued ctx val) {t : Term} (ht : ofExpr p.1 p.2 = .ok t) : ∃ out, evaluate t (t.given val) ctx = .ok out ∧
      ∀ i j, ctx.mask.get? i j = some true →
        out.get? i j = some (floatCell (if p.1.isBoolean then .bool else .float64) (number i j)) := by
  obtain ⟨hinputs, hf⟩ := ofExpr_eq_ok ht h.arity
  obtain ⟨hex, hvalue⟩ := evaluate_formula hf hv
  obtain ⟨out, hout⟩ := hex (hinputs ▸ h.plain)
  refine ⟨out, hout, fun i j hij => ?_⟩
  rw [(hvalue out hout).2 i j hij, hf.dtype, hinputs, h.value i j hij]

/-- Folding keeps values: a term that an operator makes of two others, or of one, has in every
cell that takes part what the operator makes of the numbers of those, where they are nodes of
their own. It is so for terms of any kind under any masks; only what is folded into the
formula, and is a formula itself, must have no mask. -/
theorem fold_keeps_values (hv : Valued ctx val) :
    (∀ (op : BinaryOp) (x y : Operand) (t : Term), Term.binary op x y = .ok t → x.Plain val → y.Plain val →
      (Fits op x y → ∀ u, x = .term u ∨ y = .term u → Stands ctx val u) →
      ∃ out, evaluate t (t.given val) ctx = .ok out ∧ ∀ i j, ctx.mask.get? i j = some true →
        out.get? i j = some (floatCell (if op.isBoolean then .bool else .float64)
          (op.apply (x.numberIn val i j) (y.numberIn val i j)))) ∧
    ∀ (op : UnaryOp) (x t : Term), Term.unary op x = .ok t → (val x).dtype ≠ .categorical → Stands ctx val x →
      ∃ out, evaluate t (t.given val) ctx = .ok out ∧ ∀ i j, ctx.mask.get? i j = some true →
        out.get? i j = some (floatCell (if op.isBoolean then .bool else .float64) (op.apply (x.numberIn val i j))) := by
  refine ⟨fun op x y t h hx hy hstands => ?_, fun op x t h hx hstands => ?_⟩
  · rcases binary_eq_ok h with ⟨hfits, _, rfl, ht⟩ | ⟨_, rfl, ht⟩
    · exact (folds_join hv (folds_unfolded hv hx fun u hu => hstands hfits u (.inl hu))
        (folds_unfolded hv hy fun u hu => hstands hfits u (.inr hu))).term hv ht
    · exact (folds_join hv (folds_asInput hx) (folds_asInput hy)).term hv ht
  · have hfolds := folds_unfolded (x := .term x) hv (fun u hu => by cases hu; exact hx)
      fun u hu => by cases hu; exact hstands
    exact (folds_unary hfolds).term hv h

/-- A mask on a formula that is folded is lost. -/
theorem binary_withMask {t m t' : Term} (h : t.withMask m = .ok t') {e : Expr} (hk : t.kind = .expression e)
    {op : BinaryOp} {y : Operand} (hfits : Fits op (.term t) y) :
    Term.binary op (.term t') y = Term.binary op (.term t) y := by
  obtain ⟨hkind, hinputs⟩ : t'.kind = .expression e ∧ t'.inputs = t.inputs := by
    obtain ⟨domain, rfl, -⟩ := Draft.build_eq_ok h
    exact ⟨hk, rfl⟩
  have hunfolded : (Operand.term t').unfolded = (Operand.term t).unfolded := by
    rw [Operand.unfolded_formula hkind, Operand.unfolded_formula hk, hinputs]
  have hfits' : Fits op (.term t') y := by
    rw [Fits, hunfolded]
    exact hfits
  rw [binary_of_fits hfits, binary_of_fits hfits', hunfolded]

/-! Two tests of an integer, and a third one of both. -/

/-- An integer for every asset. -/
def someInt : Term := .mk ⟨.constant (.int 1), .factor, .int64, .int 0, 0, .generic, true⟩ [] none

/-- The test of a formula with one input. -/
def testOf (e : Expr) (u : Term) : Term := .mk ⟨.expression e, .filter, .bool, .bool false, 0, .generic, true⟩ [u] none

def isThere : Expr := .unary .notNan (.input 0)

/-- One and a missing integer, and whether it is there. -/
def someVal (t : Term) : Block :=
  if t.dtype = .bool then .bools (.ofRows 2 [#v[true, false]]) else .ints (.ofRows 2 [#v[1, 0]])

def oneRow : Context := ⟨[⟨0⟩], [⟨1⟩, ⟨2⟩], .replicate (1, 2) true⟩

theorem someVal_valued : Valued oneRow someVal where
  mask := rfl
  shape t := by
    unfold someVal
    split <;> rfl
  same t u h := by rw [someVal, someVal, dtype_of_same h]

theorem fold_keeps_values_tests :
    Term.unary .notNan someInt = .ok (testOf isThere someInt) ∧
    (∃ t, Term.unary .not (testOf isThere someInt) = .ok t ∧ ∃ out, evaluate t (t.given someVal) oneRow = .ok out ∧
      out.get? 0 0 = some (.bool false) ∧ out.get? 0 1 = some (.bool true)) ∧
    ∃ t, Term.binary .and (.term (testOf isThere someInt)) (.term someInt) = .ok t ∧
      ∃ out, evaluate t (t.given someVal) oneRow = .ok out ∧ out.get? 0 0 = some (.bool true) ∧
        out.get? 0 1 = some (.bool false) := by
  have htest : Term.unary .notNan someInt = .ok (testOf isThere someInt) := rfl
  have hstands : Stands oneRow someVal (testOf isThere someInt) := ⟨.unary (.leaf someInt nofun) htest, fun _ _ => rfl⟩
  have hleaf : Stands oneRow someVal someInt := ⟨.leaf someInt nofun, nofun⟩
  refine ⟨htest, ⟨_, rfl, ?_⟩, ⟨_, rfl, ?_⟩⟩
  · obtain ⟨out, hout, hcells⟩ := (fold_keeps_values someVal_valued).2 .not (testOf isThere someInt) _ rfl nofun hstands
    exact ⟨out, hout, (hcells 0 0 rfl).trans rfl, (hcells 0 1 rfl).trans rfl⟩
  · obtain ⟨out, hout, hcells⟩ := (fold_keeps_values someVal_valued).1 .and (.term (testOf isThere someInt)) (.term someInt) _
      rfl (fun u hu => by cases hu; nofun) (fun u hu => by cases hu; nofun)
      fun _ u hu => by rcases hu with ⟨⟨⟩⟩ | ⟨⟨⟩⟩ <;> assumption
    exact ⟨out, hout, (hcells 0 0 rfl).trans rfl, (hcells 0 1 rfl).trans rfl⟩

end Term
end AsOf
