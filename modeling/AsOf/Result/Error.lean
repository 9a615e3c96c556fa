import AsOf.Dtype
import AsOf.Text.Quoted

/-!
# What can go wrong with results
-/
namespace AsOf

/-- How two results do not match. -/
inductive ColumnMismatch where
  | names (expected actual : List String)
  | dtypes (appended column : Dtype)

def ColumnMismatch.text : ColumnMismatch → String
  | names expected actual =>
    "expected columns " ++ Text.quoteList expected ++ ", got " ++ Text.quoteList actual
  | dtypes appended column =>
    "cannot append " ++ appended.name ++ " values to a " ++ column.name ++ " column"

/-- Why a result cannot be made or exported. -/
inductive ExportError where
  | lengthMismatch (column : String) (expected actual : Nat)
  | columnMismatch (m : ColumnMismatch)
  /-- A table would have two columns of one name. -/
  | duplicateColumn (name : String)

def ExportError.message : ExportError → String
  | lengthMismatch column expected actual =>
    "Column " ++ column ++ s!" has {actual} values, expected {expected}"
  | columnMismatch m => "Column mismatch: " ++ m.text
  | duplicateColumn name => "DataFrame error: duplicate: column with name '" ++ name ++
      "' has more than one occurrence"

end AsOf
