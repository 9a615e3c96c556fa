import AsOf.Scalar

/-!
# Roles, and what can be wrong with a term

A term is a factor (numbers and datetimes), a filter (truth values) or a
classifier (integers and labels). A term that cannot be built is refused with a
`TermError`, which names the terms it speaks of by their text.
-/
namespace AsOf

/-- What a term may be used for. -/
inductive Role where
  | factor
  | filter
  | classifier
deriving DecidableEq, Repr

namespace Role

/-- The cell types a term of the role may have. -/
def accepts : Role → Dtype → Bool
  | factor, .float64 | factor, .int64 | factor, .datetime => true
  | filter, .bool => true
  | classifier, .int64 | classifier, .categorical => true
  | _, _ => false

/-- The role of a column of a type. -/
def ofDtype : Dtype → Role
  | .bool => filter
  | .categorical => classifier
  | _ => factor

def name : Role → String
  | factor => "Factor"
  | filter => "Filter"
  | classifier => "Classifier"

/-- All roles. -/
def all : List Role := [factor, filter, classifier]

end Role

/-- A number that an operation does not take. -/
inductive BadParameter where
  | percentiles (low high : Float)
  | bins
  | decayRate (rate : Float)
  | span (length : Float)
  | halflife (length : Float)

namespace BadParameter

def name : BadParameter → String
  | percentiles _ _ => "percentile"
  | bins => "bins"
  | decayRate _ => "decay_rate"
  | span _ => "span"
  | halflife _ => "halflife"

def reason : BadParameter → String
  | percentiles low high =>
    "expected 0 <= min <= max <= 100, got min=" ++ Decimal.plain.write low ++ ", max=" ++
      Decimal.plain.write high
  | bins => "must be positive"
  | decayRate rate => "must be in (0, 1], got " ++ Decimal.plain.write rate
  | span s => "must be >= 1, got " ++ Decimal.plain.write s
  | halflife h => "must be positive, got " ++ Decimal.plain.write h

end BadParameter

/-- Why a term, a column or a data set cannot be built. -/
inductive TermError where
  | invalidDtype (role : Role) (dtype : Dtype)
  | missingValueDtype (term : String) (dtype : Dtype) (value : Scalar)
  | noDefaultMissing (term : String) (dtype : Dtype)
  | invalidWindow (term : String) (window minimum : UInt64)
  | notWindowSafe (parent child : String)
  | maskNotFilter (term mask : String)
  | ambiguousDomain (codes : List String)
  | roleMismatch (expected actual : Role) (term : String)
  | unsupported (op : String) (dtype : Dtype)
  | invalidParameter (bad : BadParameter)
  | unknownColumn (dataset column : String)
  | unknownDataset (name : String)
  | duplicateColumn (dataset column : String)
  | duplicateDataset (name : String)
  | array (e : ArrayError)

namespace TermError

def message : TermError → String
  | invalidDtype role dtype => role.name ++ " terms cannot have dtype " ++ dtype.name
  | missingValueDtype term dtype value =>
    "Missing value " ++ value.text ++ " is not a valid " ++ dtype.name ++ " for " ++ term
  | noDefaultMissing term dtype =>
    term ++ " has dtype " ++ dtype.name ++ ", which requires an explicit missing value"
  | invalidWindow term window minimum =>
    term ++ s!" requires window_length >= {minimum}, got {window}"
  | notWindowSafe parent child =>
    parent ++ " cannot use " ++ child ++ " as a windowed input because it is not window-safe"
  | maskNotFilter term mask => "Mask of " ++ term ++ " must be a Filter, got " ++ mask
  | ambiguousDomain codes => "Cannot unify domains " ++ Text.quoteList codes
  | roleMismatch expected actual term =>
    "Expected a " ++ expected.name ++ ", got " ++ actual.name ++ " " ++ term
  | unsupported op dtype => op ++ " is not supported for " ++ dtype.name ++ " terms"
  | invalidParameter bad => "Invalid parameter " ++ bad.name ++ ": " ++ bad.reason
  | unknownColumn dataset column => "Dataset " ++ dataset ++ " has no column " ++ column
  | unknownDataset name => "Unknown dataset: " ++ name
  | duplicateColumn dataset column => "Dataset " ++ dataset ++ " declares column " ++ column ++ " twice"
  | duplicateDataset name => "Dataset " ++ name ++ " is already registered"
  | array e => e.message

end TermError
end AsOf
