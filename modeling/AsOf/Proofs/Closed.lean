import AsOf.Proofs.Grown

/-!
# Formulas that name their inputs, all of them and nothing else

The formula of a folded term names its inputs by number, and the numbers are written anew each
time that two formulas are merged. Where a number has no input, the evaluation goes on with
NaN, and a renumbering leaves it as it is: neither would be noticed. `Expr.eval?` and
`Expr.remap?` fail there, so that what they yield was reached without it.

* `Expr.eval_merge`: two formulas under an operator, over their inputs merged, against each
  over its own.
* `Term.closed_join`: what merging and renumbering keep.
* `Term.Grown.folded`: what holds of a folded term, however it was made.
* `Term.folded_closed`: the inputs of a folded term differ and are few, its formula names just
  them, and nothing is read where there is none; and what merging two lists of inputs does.
-/
namespace AsOf

/-! ## Formulas -/

namespace Expr

/-- The numbers of the inputs that a formula names. -/
def indices : Expr → List Nat
  | input i => [i]
  | const _ => []
  | unary _ e => e.indices
  | binary _ a b => a.indices ++ b.indices

/-- The value in every cell, if each input that is named is given. -/
def eval? (inputs : List (Grid Float)) (shape : Nat × Nat) : Expr → Option (Grid Float)
  | input i => inputs[i]?
  | const c => some (.replicate shape c.toFloat)
  | unary op e => (e.eval? inputs shape).map (·.map op.apply)
  | binary op a b => do return (← a.eval? inputs shape).zipWith op.apply (← b.eval? inputs shape)

/-- Renumbers the inputs, if the table holds each number that is named. -/
def remap? (table : List Nat) : Expr → Option Expr
  | input i => table[i]?.map input
  | const c => some (const c)
  | unary op e => (e.remap? table).map (unary op)
  | binary op a b => do return binary op (← a.remap? table) (← b.remap? table)

variable {e : Expr}

theorem arity_le_iff {n : Nat} : e.arity ≤ n ↔ ∀ i ∈ e.indices, i < n := by
  induction e with
  | input i => exact (List.forall_mem_singleton (p := (· < n))).symm
  | const c => exact iff_of_true (Nat.zero_le n) nofun
  | unary op e ih => exact ih
  | binary op a b iha ihb => exact Nat.max_le.trans ((and_congr iha ihb).trans List.forall_mem_append.symm)

/-- A formula that names the numbers below a bound, all of them, has it as its arity. -/
theorem arity_eq {n : Nat} (h : ∀ i, i ∈ e.indices ↔ i < n) : e.arity = n :=
  Nat.le_antisymm (arity_le_iff.2 fun i hi => (h i).1 hi)
    (le_of_forall_lt fun i hi => arity_le_iff.1 (Nat.le_refl _) i ((h i).2 hi))

theorem indices_remap (table : List Nat) : (e.remap table).indices = e.indices.map fun i => table.getD i i := by
  induction e with
  | input i => rfl
  | const c => rfl
  | unary op e ih => exact ih
  | binary op a b iha ihb => exact (congrArg₂ (· ++ ·) iha ihb).trans List.map_append.symm

/-- With an input for every number, evaluation does not fall back on NaN. -/
theorem eval?_eq_some {inputs : List (Grid Float)} {shape : Nat × Nat} (h : e.arity ≤ inputs.length) :
    e.eval? inputs shape = some (e.eval inputs shape) := by
  induction e with
  | input i =>
    have hi : inputs[i]? = some inputs[i] := List.getElem?_eq_getElem h
    simp only [eval?, eval, List.getD_eq_getElem?_getD, hi, Option.getD_some]
  | const c => rfl
  | unary op e ih => rw [eval?, ih h]; rfl
  | binary op a b iha ihb => rw [eval?, iha (Nat.max_le.1 h).1, ihb (Nat.max_le.1 h).2]; rfl

/-- With an entry for every number, a renumbering leaves none as it is. -/
theorem remap?_eq_some {table : List Nat} (h : e.arity ≤ table.length) : e.remap? table = some (e.remap table) := by
  induction e with
  | input i =>
    have hi : table[i]? = some table[i] := List.getElem?_eq_getElem h
    simp only [remap?, remap, List.getD_eq_getElem?_getD, hi, Option.getD_some, Option.map_some]
  | const c => rfl
  | unary op e ih => rw [remap?, ih h]; rfl
  | binary op a b iha ihb => rw [remap?, iha (Nat.max_le.1 h).1, ihb (Nat.max_le.1 h).2]; rfl

/-- A formula is evaluated alike over inputs that agree on the numbers that it names. -/
theorem eval_congr {inputs inputs' : List (Grid Float)} (h : ∀ i < e.arity, inputs[i]? = inputs'[i]?)
    (shape : Nat × Nat) : e.eval inputs shape = e.eval inputs' shape := by
  induction e with
  | input i => simp only [eval, List.getD_eq_getElem?_getD, h i (Nat.lt_succ_self i)]
  | const c => rfl
  | unary op e ih => rw [eval, ih h]; rfl
  | binary op a b iha ihb =>
    rw [eval, iha fun i hi => h i (Nat.lt_of_lt_of_le hi (Nat.le_max_left ..)),
      ihb fun i hi => h i (Nat.lt_of_lt_of_le hi (Nat.le_max_right ..))]
    rfl

/-- A renumbered formula reads its inputs at their new places. -/
theorem eval_remap {table : List Nat} {inputs inputs' : List (Grid Float)}
    (h : ∀ i < e.arity, inputs[table.getD i i]? = inputs'[i]?) (shape : Nat × Nat) :
    (e.remap table).eval inputs shape = e.eval inputs' shape := by
  induction e with
  | input i => simp only [remap, eval, List.getD_eq_getElem?_getD (l := inputs), h i (Nat.lt_succ_self i)]; rfl
  | const c => rfl
  | unary op e ih => rw [remap, eval, ih h]; rfl
  | binary op a b iha ihb =>
    rw [remap, eval, iha fun i hi => h i (Nat.lt_of_lt_of_le hi (Nat.le_max_left ..)),
      ihb fun i hi => h i (Nat.lt_of_lt_of_le hi (Nat.le_max_right ..))]
    rfl

end Expr

/-! ## Merging -/

section Merging

variable {α : Type} {eq : α → α → Bool}

/-- Merging adds what is not there yet. -/
theorem merge_distinct {left : List α} (right : List α) (h : left.Pairwise fun x y => eq x y = false) :
    (merge eq left right).1.Pairwise fun x y => eq x y = false := by
  induction right generalizing left with
  | nil => exact h
  | cons x right ih =>
    rw [merge]
    cases hp : position? eq left x with
    | some i => exact ih h
    | none =>
      have hnew : ∀ y ∈ left, eq y x = false := List.findIdx?_eq_none_iff.1 hp
      exact ih (List.pairwise_append.2 ⟨h, List.pairwise_singleton .., fun y hy z hz =>
        List.mem_singleton.1 hz ▸ hnew y hy⟩)

/-- What merging adds is at one of the places that it reports. -/
theorem mem_positions {left right : List α} {k : Nat} (hk : k < (merge eq left right).1.length) :
    k < left.length ∨ k ∈ (merge eq left right).2 := by
  induction right generalizing left with
  | nil => exact .inl hk
  | cons x right ih =>
    rw [merge] at hk ⊢
    cases hp : position? eq left x with
    | some i =>
      rw [hp] at hk
      exact (ih hk).imp_right (List.mem_cons_of_mem _)
    | none =>
      rw [hp] at hk
      rcases ih hk with h | h
      · rw [List.length_append, List.length_singleton] at h
        exact (Nat.lt_succ_iff_lt_or_eq.1 h).imp_right fun h : k = left.length => h ▸ List.mem_cons_self
      · exact .inr (List.mem_cons_of_mem _ h)

theorem length_merge_le (left right : List α) : (merge eq left right).1.length ≤ left.length + right.length := by
  induction right generalizing left with
  | nil => exact Nat.le_refl _
  | cons x right ih =>
    rw [merge]
    cases position? eq left x with
    | some i => exact Nat.le_succ_of_le (ih left)
    | none => simpa only [List.length_append, List.length_cons, List.length_nil, Nat.add_assoc, Nat.add_comm,
        Nat.add_left_comm] using ih (left ++ [x])

/-- Two formulas under an operator, over their inputs merged, come to what each does over its own. -/
theorem Expr.eval_merge (hrefl : ∀ x, eq x x = true) {left right : List α} {value : α → Grid Float}
    (hvalue : ∀ x y, eq x y = true → value x = value y) (op : BinaryOp) {l r : Expr} (hl : l.arity ≤ left.length)
    (hr : r.arity ≤ right.length) (shape : Nat × Nat) :
    (Expr.binary op l (r.remap (merge eq left right).2)).eval ((merge eq left right).1.map value) shape =
      (l.eval (left.map value) shape).zipWith op.apply (r.eval (right.map value) shape) := by
  obtain ⟨hpre, -, hpos⟩ := merge_spec hrefl left right
  have hleft : l.eval ((merge eq left right).1.map value) shape = l.eval (left.map value) shape :=
    Expr.eval_congr (fun i hi => by
      rw [List.getElem?_map, List.getElem?_map, getElem?_of_isPrefix hpre (Nat.lt_of_lt_of_le hi hl)]) shape
  have hright : (r.remap (merge eq left right).2).eval ((merge eq left right).1.map value) shape =
      r.eval (right.map value) shape :=
    Expr.eval_remap (fun i hi => by
      have hx := List.getElem?_eq_getElem (Nat.lt_of_lt_of_le hi hr)
      obtain ⟨k, hk, y, hy, hyx⟩ := Checked.getElem?_left hpos hx
      rw [List.getD_eq_getElem?_getD, hk, Option.getD_some, List.getElem?_map, List.getElem?_map, hy, hx,
        Option.map_some, Option.map_some, hvalue _ _ hyx]) shape
  rw [Expr.eval, hleft, hright]

end Merging

/-! ## Folded terms -/

namespace Term

/-- The inputs of a formula differ, and it names just them. -/
structure Closed (p : Expr × List Term) : Prop where
  distinct : p.2.Pairwise fun t u => t.same u = false
  names : ∀ i, i ∈ p.1.indices ↔ i < p.2.length

variable {t : Term}

theorem Closed.arity {p : Expr × List Term} (h : Closed p) : p.1.arity = p.2.length := Expr.arity_eq h.names

theorem closed_input (t : Term) : Closed (.input 0, [t]) where
  distinct := List.pairwise_singleton ..
  names _ := List.mem_singleton.trans Nat.lt_one_iff.symm

theorem closed_const (c : Param) : Closed (.const c, []) where
  distinct := .nil
  names _ := iff_of_false List.not_mem_nil (Nat.not_lt_zero _)

/-- Merging names the inputs of both formulas, on the right by their new places. -/
theorem closed_join (op : BinaryOp) {left right : Expr × List Term} (hl : Closed left) (hr : Closed right) :
    Closed (join op left right) where
  distinct := merge_distinct right.2 hl.distinct
  names i := by
    obtain ⟨hpre, -, hpos⟩ := merge_spec same_refl left.2 right.2
    let table := (merge same left.2 right.2).2
    have hlength : table.length = right.2.length := positions_length ..
    show i ∈ left.1.indices ++ (right.1.remap table).indices ↔ i < (merge same left.2 right.2).1.length
    rw [List.mem_append, hl.names, Expr.indices_remap, List.mem_map]
    constructor
    · rintro (hi | ⟨j, hj, rfl⟩)
      · exact Nat.lt_of_lt_of_le hi hpre.length_le
      · obtain ⟨k, hk, u, hu, -⟩ := Checked.getElem?_left hpos (List.getElem?_eq_getElem ((hr.names j).1 hj))
        rw [List.getD_eq_getElem?_getD, hk]
        exact (List.getElem?_eq_some_iff.1 hu).1
    · refine fun hi => (mem_positions hi).imp_right fun hi => ?_
      obtain ⟨j, hj, rfl⟩ := List.getElem_of_mem hi
      refine ⟨j, (hr.names j).2 (hlength ▸ hj), ?_⟩
      rw [List.getD_eq_getElem?_getD, List.getElem?_eq_getElem hj, Option.getD_some]

/-- A closed formula whose inputs are few enough for one term. -/
structure Folded (p : Expr × List Term) : Prop extends Closed p where
  few : p.2.length ≤ maxInputs

theorem Operand.folded_unfolded {x : Operand}
    (h : ∀ u, x = .term u → ∀ e, u.kind = .expression e → Folded (e, u.inputs)) : Folded x.unfolded := by
  cases x with
  | const x => exact ⟨closed_const _, Nat.zero_le _⟩
  | term u =>
    by_cases hk : ∃ e, u.kind = .expression e
    · obtain ⟨e, hk⟩ := hk
      rw [unfolded_formula hk]
      exact h u rfl e hk
    · rw [unfolded_leaf (not_exists.1 hk)]
      exact ⟨closed_input u, show 1 ≤ maxInputs by decide⟩

theorem Operand.closed_asInput (x : Operand) : Closed x.asInput ∧ x.asInput.2.length ≤ 1 := by
  cases x with
  | const x => exact ⟨closed_const _, Nat.zero_le 1⟩
  | term u => exact ⟨closed_input u, Nat.le_refl 1⟩

/-- However a term was made, its formula names all of its inputs and nothing else. -/
theorem Grown.folded (h : t.Grown) : ∀ e, t.kind = .expression e → Folded (e, t.inputs) := by
  -- a term is built of one formula, the one of its kind
  have built {t : Term} {e : Expr} (p : Expr × List Term) (hp : Folded p) (ht : ofExpr p.1 p.2 = .ok t)
      (hk : t.kind = .expression e) : Folded (e, t.inputs) := by
    obtain ⟨hi, hf⟩ := ofExpr_eq_ok ht (Nat.le_of_eq hp.arity)
    obtain rfl : p.1 = e := Kind.expression.inj (hf.kind.symm.trans hk)
    rwa [hi]
  induction h with
  | assetExists => exact nofun
  | ofColumn c => exact nofun
  | latestOfColumn c => exact nofun
  | draft h _ plain =>
    obtain ⟨domain, rfl, -⟩ := Draft.build_eq_ok h
    exact fun e hk => absurd hk (plain e)
  | @binary op x y t _ _ h ihl ihr =>
    intro e hk
    rcases binary_eq_ok h with ⟨hfits, _, rfl, ht⟩ | ⟨_, rfl, ht⟩
    · have hl := Operand.folded_unfolded ihl
      have hr := Operand.folded_unfolded ihr
      exact built _ ⟨closed_join op hl.toClosed hr.toClosed, hfits⟩ ht hk
    · -- two inputs at most
      obtain ⟨hl, hl1⟩ := x.closed_asInput
      obtain ⟨hr, hr1⟩ := y.closed_asInput
      have hfew : (join op x.asInput y.asInput).2.length ≤ maxInputs :=
        Nat.le_trans (length_merge_le ..) (Nat.le_trans (Nat.add_le_add hl1 hr1) (by decide))
      exact built _ ⟨closed_join op hl hr, hfew⟩ ht hk
  | @unary op x t _ h ih =>
    intro e hk
    have hx : Folded (Operand.term x).unfolded := Operand.folded_unfolded fun u hu => Operand.term.inj hu ▸ ih
    exact built (.unary op (Operand.term x).unfolded.1, (Operand.term x).unfolded.2) ⟨⟨hx.distinct, hx.names⟩, hx.few⟩
      h hk
  | withMask _ _ h ih =>
    obtain ⟨domain, rfl, -⟩ := Draft.build_eq_ok h
    exact ih

/-- The inputs of a folded term differ and are at most 32, and its formula names their numbers
and no others. So it has as many inputs as its arity says, and neither an evaluation over as
many grids nor a renumbering by as long a table meets a number without an entry. Merging two
lists of inputs adds to the left what is new on the right, says where each input on the right
is found, and changes nothing of what two formulas over them come to under an operator. -/
theorem folded_closed :
    (∀ t : Term, t.Made → ∀ e, t.kind = .expression e →
      (t.inputs.Pairwise fun u v => u.same v = false) ∧ t.inputs.length ≤ 32 ∧
      (∀ i, i ∈ e.indices ↔ i < t.inputs.length) ∧ e.arity = t.inputs.length ∧
      (∀ grids shape, grids.length = t.inputs.length → e.eval? grids shape = some (e.eval grids shape)) ∧
      ∀ table, table.length = t.inputs.length → e.remap? table = some (e.remap table)) ∧
    ∀ (α : Type) (eq : α → α → Bool), (∀ x, eq x x = true) → ∀ left right : List α,
      (left.Pairwise fun x y => eq x y = false) → ∀ merged positions, merge eq left right = (merged, positions) →
      left <+: merged ∧ (merged.Pairwise fun x y => eq x y = false) ∧ (∀ x ∈ merged, x ∈ left ∨ x ∈ right) ∧
      List.Forall₂ (fun k x => ∃ y, merged[k]? = some y ∧ eq y x = true) positions right ∧
      ∀ value : α → Grid Float, (∀ x y, eq x y = true → value x = value y) → ∀ (op : BinaryOp) (l r : Expr),
        (∀ i ∈ l.indices, i < left.length) → (∀ i ∈ r.indices, i < right.length) → ∀ shape,
        (Expr.binary op l (r.remap positions)).eval (merged.map value) shape =
          (l.eval (left.map value) shape).zipWith op.apply (r.eval (right.map value) shape) := by
  refine ⟨fun t ht e hk => ?_, fun α eq hrefl left right hdistinct merged positions hmerge => ?_⟩
  · have hf := ht.grown.folded e hk
    have harity : e.arity = t.inputs.length := hf.toClosed.arity
    exact ⟨hf.distinct, hf.few, hf.names, harity,
      fun grids shape hg => Expr.eval?_eq_some (Nat.le_of_eq (harity.trans hg.symm)),
      fun table hg => Expr.remap?_eq_some (Nat.le_of_eq (harity.trans hg.symm))⟩
  · obtain ⟨hpre, hmem, hpos⟩ := merge_spec hrefl left right
    have hnew := merge_distinct right hdistinct
    have heval {value : α → Grid Float} (hvalue : ∀ x y, eq x y = true → value x = value y) (op : BinaryOp)
        {l r : Expr} (hl : ∀ i ∈ l.indices, i < left.length) (hr : ∀ i ∈ r.indices, i < right.length) :=
      Expr.eval_merge hrefl hvalue op (Expr.arity_le_iff.2 hl) (Expr.arity_le_iff.2 hr)
    rw [hmerge] at hpre hmem hpos hnew heval
    exact ⟨hpre, hnew, hmem, hpos, fun value hvalue op l r hl hr => heval hvalue op hl hr⟩

/-! The change of a price over a day as a share of where it opened, which is read twice. -/

def opening : Column := ⟨"Pricing", "open", .float64, .float nan, .generic⟩

def closing : Column := ⟨"Pricing", "close", .float64, .float nan, .generic⟩

/-- A formula over the closing price and the opening one. -/
def ofPrices (e : Expr) : Term :=
  .mk ⟨.expression e, .factor, .float64, .float nan, 0, .generic, true⟩ [.ofColumn closing, .ofColumn opening] none

def dayChange : Expr := .binary .sub (.input 0) (.input 1)

theorem dayShare_made : (ofPrices (.binary .div dayChange (.input 1))).Made := by
  have hopening : (ofColumn opening).Made := .ofColumn opening rfl
  have hchange : (ofPrices dayChange).Made :=
    @Made.binary .sub (.term (.ofColumn closing)) (.term (.ofColumn opening)) _
      (fun u hu => Operand.term.inj hu ▸ .ofColumn closing rfl) (fun u hu => Operand.term.inj hu ▸ hopening)
      (fun u hu => Operand.term.inj hu ▸ rfl) (fun u hu => Operand.term.inj hu ▸ rfl) rfl
  exact @Made.binary .div (.term (ofPrices dayChange)) (.term (.ofColumn opening)) _
    (fun u hu => Operand.term.inj hu ▸ hchange) (fun u hu => Operand.term.inj hu ▸ hopening)
    (fun u hu => Operand.term.inj hu ▸ rfl) (fun u hu => Operand.term.inj hu ▸ rfl) rfl

/-- Merged with the opening price, the two prices trade places. -/
theorem folded_closed_dayShare :
    (ofPrices (.binary .div dayChange (.input 1))).Made ∧
    (Expr.binary .div dayChange (.input 1)).eval? [.replicate (1, 1) 3.0, .replicate (1, 1) 2.0] (1, 1) =
      some ((Expr.binary .div dayChange (.input 1)).eval [.replicate (1, 1) 3.0, .replicate (1, 1) 2.0] (1, 1)) ∧
    merge same [ofColumn opening] [ofColumn closing, ofColumn opening] =
      ([ofColumn opening, ofColumn closing], [1, 0]) ∧
    ∀ value : Term → Grid Float, (∀ x y, x.same y = true → value x = value y) → ∀ shape,
      (Expr.binary .mul (.input 0) (dayChange.remap [1, 0])).eval
          ([ofColumn opening, ofColumn closing].map value) shape =
        ((Expr.input 0).eval ([ofColumn opening].map value) shape).zipWith BinaryOp.mul.apply
          (dayChange.eval ([ofColumn closing, ofColumn opening].map value) shape) := by
  obtain ⟨hterms, hmerges⟩ := folded_closed
  obtain ⟨-, -, -, -, heval, -⟩ := hterms _ dayShare_made _ rfl
  have hmerge : merge same [ofColumn opening] [ofColumn closing, ofColumn opening] =
      ([ofColumn opening, ofColumn closing], [1, 0]) := rfl
  obtain ⟨-, -, -, -, hvalue⟩ := hmerges Term same same_refl _ _ (List.pairwise_singleton ..) _ _ hmerge
  exact ⟨dayShare_made, heval _ _ rfl, hmerge,
    fun value hsame shape => hvalue value hsame .mul (.input 0) dayChange (by decide) (by decide) shape⟩

end Term
end AsOf
