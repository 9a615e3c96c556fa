import AsOf.Term.Text

/-!
# Building terms

A `Draft` is a term not yet checked. `Draft.build` checks, in this order, that
the role takes the type, that there is a missing value of the type, that the
window is long enough, that a window over several sessions reads only inputs
that restated history leaves alone, that the mask is a filter, and that domain,
inputs and mask have a market in common. `finish` makes the term unchecked.
-/
namespace AsOf

/-- A term in the making. -/
structure Draft where
  kind : Kind
  role : Role
  dtype : Dtype
  /-- The default of the type if it is not given. -/
  missing : Option Scalar := none
  window : UInt64 := 0
  inputs : List Term := []
  mask : Option Term := none
  windowSafe : Bool := false
  domain : Option Domain := none

namespace Draft

/-- The text that the term will have. -/
def text (d : Draft) : String := d.kind.text (d.inputs.map Term.text) d.window

/-- Safe when all inputs are. -/
def inheritSafety (d : Draft) : Draft := { d with windowSafe := d.inputs.all Term.windowSafe }

/-- The term, unchecked. -/
def finish (d : Draft) (domain : Domain) : Term :=
  let missing := (d.missing.or d.dtype.defaultMissing?).getD (.int 0)
  .mk ⟨d.kind, d.role, d.dtype, missing, d.window, domain, d.windowSafe⟩ d.inputs d.mask

/-! ## Checks -/

def checkRole (d : Draft) : Except TermError Unit :=
  if d.role.accepts d.dtype then .ok () else .error (.invalidDtype d.role d.dtype)

def checkMissing (d : Draft) : Except TermError Unit :=
  match d.missing with
  | some value =>
    if value.dtype = d.dtype then .ok () else .error (.missingValueDtype d.text d.dtype value)
  | none =>
    if d.dtype.defaultMissing?.isSome then .ok () else .error (.noDefaultMissing d.text d.dtype)

def checkWindow (d : Draft) : Except TermError Unit :=
  match d.kind.minimumWindow? with
  | some minimum =>
    if d.window < minimum then .error (.invalidWindow d.text d.window minimum) else .ok ()
  | none => .ok ()

def checkSafety (d : Draft) : Except TermError Unit :=
  if d.window ≤ 1 then .ok ()
  else
    match d.inputs.find? (!·.windowSafe) with
    | some child => .error (.notWindowSafe d.text child.text)
    | none => .ok ()

def checkMask (d : Draft) : Except TermError Unit :=
  match d.mask with
  | some mask => if mask.role = .filter then .ok () else .error (.maskNotFilter d.text mask.text)
  | none => .ok ()

/-- The domains that the term must have in common. -/
def domains (d : Draft) : List Domain :=
  d.domain.toList ++ d.inputs.map Term.domain ++ (d.mask.map Term.domain).toList

/-- The term, if all checks pass. -/
def build (d : Draft) : Except TermError Term := do
  d.checkRole
  d.checkMissing
  d.checkWindow
  d.checkSafety
  d.checkMask
  return d.finish (← Domain.unify d.domains)

end Draft

namespace Term

/-! ## Leaves -/

/-- Whether an asset is in the universe. -/
def assetExists : Term :=
  ({ kind := .assetExists, role := .filter, dtype := .bool, missing := some (.bool false),
     windowSafe := true } : Draft).finish .generic

/-- The same value in every cell. -/
def constant (value : Scalar) : Except TermError Term :=
  ({ kind := .constant value, role := .ofDtype value.dtype, dtype := value.dtype,
     missing := some value, windowSafe := true } : Draft).build

/-- A column of a data set. -/
def ofColumn (c : Column) : Term :=
  ({ kind := .column c, role := .ofDtype c.dtype, dtype := c.dtype, missing := some c.missing,
     windowSafe := true } : Draft).finish c.domain

/-- The newest row of a column, as known on each session. -/
def latestOfColumn (c : Column) : Term :=
  let input := ofColumn c
  ({ kind := .latest, role := input.role, dtype := input.dtype, missing := some input.missing,
     window := 1, windowSafe := true, inputs := [input] } : Draft).finish c.domain

/-- The term with another mask, which replaces the one it has. -/
def withMask (t mask : Term) : Except TermError Term :=
  ({ kind := t.kind, role := t.role, dtype := t.dtype, missing := some t.missing,
     window := t.window, inputs := t.inputs, mask := some mask, windowSafe := t.windowSafe,
     domain := if t.domain.isGeneric then none else some t.domain } : Draft).build

/-- Refuses a term of another role. -/
def expect (t : Term) (role : Role) : Except TermError Unit :=
  if t.role = role then .ok () else .error (.roleMismatch role t.role t.text)

/-! ## Folding formulas -/

/-- Formulas read at most this many inputs. -/
def maxInputs : Nat := 32

/-- An operand of a formula. -/
inductive Operand where
  | term (t : Term)
  | const (x : Float)

namespace Operand

/-- The formula of an operand, and its inputs. -/
def unfolded : Operand → Expr × List Term
  | const x => (.const (.ofFloat x), [])
  | term t =>
    match t.kind with
    | .expression e => (e, t.inputs)
    | _ => (.input 0, [t])

/-- The operand as one input. -/
def asInput : Operand → Expr × List Term
  | const x => (.const (.ofFloat x), [])
  | term t => (.input 0, [t])

end Operand

/-- The term of a formula: a filter if the formula yields truth values. -/
def ofExpr (e : Expr) (inputs : List Term) : Except TermError Term :=
  if e.isBoolean then
    ({ kind := .expression e, role := .filter, dtype := .bool, inputs, windowSafe := true } :
      Draft).build
  else
    ({ kind := .expression e, role := .factor, dtype := .float64, inputs } :
      Draft).inheritSafety.build

/-- Two formulas under one operator, over their merged inputs. -/
def join (op : BinaryOp) (left right : Expr × List Term) : Expr × List Term :=
  let (inputs, positions) := merge same left.2 right.2
  (.binary op left.1 (right.1.remap positions), inputs)

/-- Folds the operands into one formula, or takes them as inputs if that is too large. -/
def binary (op : BinaryOp) (left right : Operand) : Except TermError Term :=
  let (e, inputs) := join op left.unfolded right.unfolded
  if inputs.length ≤ maxInputs then ofExpr e inputs
  else
    let (e, inputs) := join op left.asInput right.asInput
    ofExpr e inputs

/-- Folds an operator into the formula of a term. -/
def unary (op : UnaryOp) (t : Term) : Except TermError Term :=
  let (e, inputs) := (Operand.term t).unfolded
  ofExpr (.unary op e) inputs

end Term
end AsOf
