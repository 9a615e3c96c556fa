import AsOf.Array.Error

/-!
# What can go wrong in loading columns

Columns are named by their full names.
-/
namespace AsOf

/-- Why a source of columns cannot be read. -/
inductive SourceFault where
  | columnOmitted
  | notFound (field : String)
  | incompleteRow (row : Nat)
  | valueMissing (row : Nat)
  | unknownKind (kind : Option String)
  | castUnsupported (source target : String)
  | connectionLost

def SourceFault.text : SourceFault → String
  | columnOmitted => "loader did not return the column"
  | notFound field => "not found: \"" ++ field ++ "\" not found"
  | incompleteRow row => s!"incomplete adjustment row {row}"
  | valueMissing row => s!"missing value in adjustment row {row}"
  | unknownKind (some kind) => "unknown adjustment kind Some(" ++ Text.quote kind ++ ")"
  | unknownKind none => "unknown adjustment kind None"
  | castUnsupported source target => "casting from " ++ source ++ " to " ++ target ++ " not supported"
  | connectionLost => "connection lost"

/-- Why columns cannot be loaded. -/
inductive LoadError where
  | noData (column : String)
  | source (columns : List String) (fault : SourceFault)
  | shape (column : String) (expected actual : Nat × Nat)
  | missingValue (column expected actual : String)
  | array (e : ArrayError)

def LoadError.message : LoadError → String
  | noData column => "No data available for " ++ column
  | source columns fault => "Failed to load " ++ Text.quoteList columns ++ ": " ++ fault.text
  | shape column expected actual =>
    "Loader returned shape " ++ Text.pair actual ++ " for " ++ column ++ ", expected " ++
      Text.pair expected
  | missingValue column expected actual =>
    "Loader used missing value " ++ actual ++ " for " ++ column ++ ", expected " ++ expected
  | array e => e.message

end AsOf
