import AsOf.Named
import AsOf.Run.Error
import AsOf.Term.Handles

/-!
# Pipelines

A `Pipeline` names the terms to compute and may have a screen, a filter that the
rows of the result have to pass. It runs on the one market that it and its terms
have in common.
-/
namespace AsOf

/-- Named terms, and perhaps a screen and a domain. -/
structure Pipeline where
  columns : Named Term := []
  screen : Option Filter := none
  domain : Option Domain := none

namespace Pipeline

/-- Adds a column of a new name. -/
def add (p : Pipeline) (name : String) (t : Term) : Except RunError Pipeline :=
  if (p.columns.get? name).isSome then .error (.duplicateColumn name)
  else .ok { p with columns := p.columns.insert name t }

/-- Adds columns one after the other. -/
def addAll (p : Pipeline) (columns : List (String × Term)) : Except RunError Pipeline :=
  columns.foldlM (fun p (name, t) => p.add name t) p

/-- Takes a column away. -/
def remove (p : Pipeline) (name : String) : Pipeline := { p with columns := p.columns.erase name }

def setScreen (p : Pipeline) (screen : Filter) : Pipeline := { p with screen := some screen }

/-- The terms of all columns and of the screen. -/
def terms (p : Pipeline) : List Term := p.columns.items ++ (p.screen.map Filter.term).toList

/-- The market that the pipeline runs on; `default` if all is generic. -/
def domainOr (p : Pipeline) (default : Domain) : Except RunError Domain := do
  let unified ← (Domain.unify (p.domain.toList ++ p.terms.map Term.domain)).mapError .term
  return if unified.isGeneric then default else unified

def graph (p : Pipeline) : Except RunError TermGraph :=
  (TermGraph.of? p.columns (p.screen.map Filter.term)).mapError fun chain =>
    .cyclicDependency (chain.map Term.text)

end Pipeline
end AsOf
