import AsOf.Calendar.Sessions
import AsOf.Term.Error

/-!
# Domains

A domain is a market with a calendar, or the generic one, which fits every
market. Two domains are the same when their codes are. `unify` finds the one
market among some domains; two different markets have none in common.
-/
namespace AsOf

/-- A market, or none in particular. -/
inductive Domain where
  | generic
  | market (code : String) (calendar : Calendar)
deriving Repr

namespace Domain

def code : Domain → String
  | generic => "GENERIC"
  | market code _ => code

def isGeneric : Domain → Bool
  | generic => true
  | market _ _ => false

def calendar? : Domain → Option Calendar
  | generic => none
  | market _ calendar => some calendar

/-- Equal codes. -/
def same (a b : Domain) : Bool := a.code == b.code

instance : BEq Domain := ⟨same⟩

/-- The markets among some domains, the first of each code. -/
def markets (domains : List Domain) : List Domain :=
  domains.foldl (fun found d => if d.isGeneric || found.contains d then found else found ++ [d]) []

/-- The one market among some domains; generic if there is none. -/
def unify (domains : List Domain) : Except TermError Domain :=
  match markets domains with
  | [] => .ok generic
  | [d] => .ok d
  | ds => .error (.ambiguousDomain (ds.map code))

end Domain
end AsOf
