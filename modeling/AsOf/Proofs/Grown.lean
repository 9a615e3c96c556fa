import AsOf.Proofs.Made

/-!
# Terms by what they are grown from

There are many operations on terms, but few ways in which they make one: a leaf is finished
without a check, a draft is built, operators fold formulas, and a mask is put on a term.
`Term.Grown` has a case for each of these, for statements that do not depend on which
operation it was.

* `Term.Made.grown`: what the operations make is grown.
* `Term.Grown.built`: what is grown is built, where formulas are drafts among others.
-/
namespace AsOf
namespace Term

/-- Leaves, drafts that are no formulas, and what operators fold, under any masks. -/
inductive Grown : Term → Prop
  | assetExists : Grown assetExists
  | ofColumn (c : Column) (h : c.missing.dtype = c.dtype) : Grown (ofColumn c)
  | latestOfColumn (c : Column) (h : c.missing.dtype = c.dtype) : Grown (latestOfColumn c)
  | draft {d : Draft} {t : Term} (h : d.build = .ok t) (computed : d.kind.isLoadable = false)
      (plain : ∀ e, d.kind ≠ .expression e) (inputs : ∀ i ∈ d.inputs, Grown i) (mask : ∀ m ∈ d.mask, Grown m) :
      Grown t
  | binary {op : BinaryOp} {x y : Operand} {t : Term} (left : ∀ u, x = .term u → Grown u)
      (right : ∀ u, y = .term u → Grown u) (h : Term.binary op x y = .ok t) : Grown t
  | unary {op : UnaryOp} {x t : Term} (operand : Grown x) (h : Term.unary op x = .ok t) : Grown t
  | withMask {t m t' : Term} (term : Grown t) (mask : Grown m) (h : t.withMask m = .ok t') : Grown t'

variable {t : Term}

/-! ## From the operations -/

/-- What the operations make is grown. -/
theorem Made.grown (h : t.Made) : t.Grown := by
  induction h using Made.drafted with
  | assetExists => exact .assetExists
  | ofColumn c h => exact .ofColumn c h
  | latestOfColumn c h => exact .latestOfColumn c h
  | withMask _ _ h iht ihm => exact .withMask iht ihm h
  | binary _ _ _ _ h ihl ihr => exact .binary ihl ihr h
  | unary _ _ h ih => exact .unary ih h
  | draft _ h ho hi hm => exact .draft h ho.computed ho.plain (fun x hx => (hi x hx).2) fun m hm' => (hm m hm').2

/-! ## Formulas as drafts -/

theorem Built.parts (h : t.Built) : Parts Built t := ⟨h, fun _ _ => h.edges.1⟩

theorem Built.of_ofExpr {e : Expr} {inputs : List Term} (hi : ∀ u ∈ inputs, u.Built) (h : ofExpr e inputs = .ok t) :
    t.Built := by
  have hmask : ∀ m ∈ (none : Option Term), m.Built := nofun
  unfold ofExpr at h
  split at h
  · exact .draft _ _ rfl hi hmask h
  · exact .draft _ _ rfl hi hmask h

/-- What is grown is built. -/
theorem Grown.built (h : t.Grown) : t.Built := by
  induction h with
  | assetExists => exact .assetExists
  | ofColumn c h => exact .ofColumn c h
  | latestOfColumn c h => exact .latestOfColumn c h
  | draft h computed _ _ _ ihi ihm => exact .draft _ _ computed ihi ihm h
  | binary _ _ h ihl ihr =>
    obtain ⟨e, inputs, ht, hi⟩ := exists_ofExpr (fun u hu => (ihl u hu).parts) (fun u hu => (ihr u hu).parts) h
    exact .of_ofExpr hi ht
  | unary _ h ih => exact .of_ofExpr (forall_unfolded (x := .term _) fun u hu => Operand.term.inj hu ▸ ih.parts) h
  | withMask _ _ h iht ihm => exact .withMask _ _ _ iht ihm h

end Term
end AsOf
