import AsOf.Config.Basic
import AsOf.Domain
import AsOf.Graph.Plan
import AsOf.Loader.Error
import AsOf.Result.Error
import AsOf.Term.EvalError

/-!
# What can go wrong in a run
-/
namespace AsOf

/-- Why a pipeline cannot be built or run. -/
inductive RunError where
  | unregisteredColumn (column : String)
  | invalidDateRange (start stop : Date)
  | dateOutsideCalendar (date : Date) (calendar : String)
  | noCalendar (domain : String)
  | plan (e : PlanError)
  /-- The path around a cycle of terms. -/
  | cyclicDependency (chain : List String)
  | missingDependency (reader dependency : String)
  | duplicateColumn (name : String)
  | config (e : ConfigError)
  | load (e : LoadError)
  | term (e : TermError)
  | eval (e : EvalError)
  | array (e : ArrayError)
  | output (e : ExportError)
  | cancelled (completed : Nat)

namespace RunError

def message : RunError → String
  | unregisteredColumn column => "No loader registered for " ++ column
  | invalidDateRange start stop =>
    "Invalid date range: start " ++ start.text ++ " is after end " ++ stop.text
  | dateOutsideCalendar date calendar => date.text ++ " is outside calendar " ++ calendar
  | noCalendar domain => "Domain " ++ domain ++ " has no trading calendar"
  | plan (.outsideCalendar first last sessions) =>
    "Invalid configuration: " ++ (PlanError.outsideCalendar first last sessions).message
  | plan e => e.message
  | cyclicDependency chain => "Cyclic dependency: " ++ " -> ".intercalate chain
  | missingDependency reader dependency =>
    reader ++ " was evaluated before its dependency " ++ dependency
  | duplicateColumn name => "Pipeline already has a column named " ++ name
  | config e => e.message
  | load e => e.message
  | term e => e.message
  | eval e => e.message
  | array e => e.message
  | output e => e.message
  | cancelled completed => s!"Pipeline cancelled after {completed} chunks"

end RunError
end AsOf
