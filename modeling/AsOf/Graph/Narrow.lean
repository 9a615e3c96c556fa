import AsOf.Graph.Terms

/-!
# Narrowing a pipeline to a set of assets

A screen built from fixed sets of assets passes no other asset. The whole graph
may then be computed for those assets alone, if every term that looks across a
row is masked to a part of them; otherwise the screen has to wait until the
values are there.
-/
namespace AsOf

/-- A set of assets outside of which a filter is never true; none if it is not known. -/
abbrev Bound := Option (List Sid)

namespace Bound

/-- The bound of what satisfies both. -/
def meet : Bound → Bound → Bound
  | some a, some b => some (a.filter b.contains)
  | a, b => a.or b

/-- The bound of what satisfies either. -/
def join : Bound → Bound → Bound
  | some a, some b => some (Sid.sortedSet (a ++ b))
  | _, _ => none

/-- The bound of a formula over the bounds of its inputs. -/
def ofExpr (inputs : List Bound) : Expr → Bound
  | .input i => inputs.getD i none
  | .binary .and a b => meet (ofExpr inputs a) (ofExpr inputs b)
  | .binary .or a b => join (ofExpr inputs a) (ofExpr inputs b)
  | _ => none

/-- The bound of a node over the bounds of its inputs. -/
def ofKind (inputs : List Bound) : Kind → Bound
  | .staticAssets sids => some sids
  | .expression e => ofExpr inputs e
  | _ => none

end Bound

namespace Term

mutual
/-- The assets outside of which the term is never true, if its text alone says so. -/
def reduce : Term → Bound
  | mk head inputs mask => (Bound.ofKind (reduceAll inputs) head.kind).meet (reduceMask mask)

def reduceAll : List Term → List Bound
  | [] => []
  | t :: ts => reduce t :: reduceAll ts

def reduceMask : Option Term → Bound
  | none => none
  | some t => reduce t
end

/-- Whether the term looks across a row at no assets but these. -/
def staysWithin (sids : List Sid) (t : Term) : Bool :=
  !t.kind.isCrossSectional || (t.mask.bind reduce).any fun own => own.all sids.contains

end Term

/-- The assets that the whole graph may be computed for. -/
def TermGraph.narrowed? (g : TermGraph) : Bound := do
  let screen ← g.terms[← g.screen]?
  let sids ← screen.reduce
  if g.terms.all (Term.staysWithin sids) then some sids else none

end AsOf
