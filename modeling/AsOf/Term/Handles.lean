import AsOf.Term.Draft

/-!
# Factors, filters and classifiers

The three roles of a term as types of their own. `of?` takes a term of the right
role; the operations are those that the role offers, and each builds a new term.
-/
namespace AsOf

/-- A term of numbers or datetimes. -/
structure Factor where
  term : Term

/-- A term of truth values. -/
structure Filter where
  term : Term

/-- A term of integers or labels. -/
structure Classifier where
  term : Term

/-- Whether a cell holds a missing value, or whether it does not. -/
def Term.nullCheck (negate : Bool) (t : Term) : Except TermError Filter :=
  Filter.mk <$> ({ kind := .nullCheck negate, role := .filter, dtype := .bool, inputs := [t],
                   windowSafe := true } : Draft).build

namespace Filter

def of? (t : Term) : Except TermError Filter := do
  t.expect .filter
  return ⟨t⟩

def and (x y : Filter) : Except TermError Filter :=
  mk <$> Term.binary .and (.term x.term) (.term y.term)

def or (x y : Filter) : Except TermError Filter :=
  mk <$> Term.binary .or (.term x.term) (.term y.term)

def not (x : Filter) : Except TermError Filter := mk <$> Term.unary .not x.term

/-- True in every cell. -/
def everything : Except TermError Filter := Term.constant (.bool true) >>= of?

/-- True for the named assets. -/
def staticAssets (sids : List Sid) : Except TermError Filter :=
  mk <$> ({ kind := .staticAssets (Sid.sortedSet sids), role := .filter, dtype := .bool,
            windowSafe := true } : Draft).build

end Filter

namespace Classifier

def of? (t : Term) : Except TermError Classifier := do
  t.expect .classifier
  return ⟨t⟩

/-- A test of each cell, for classifiers of one type. -/
def test (x : Classifier) (op : String) (dtype : Dtype) (test : LabelTest) :
    Except TermError Filter :=
  if x.term.dtype = dtype then
    Filter.mk <$> ({ kind := .labelTest test, role := .filter, dtype := .bool,
                     inputs := [x.term], windowSafe := true } : Draft).build
  else .error (.unsupported op x.term.dtype)

def eqLabel (x : Classifier) (label : String) : Except TermError Filter :=
  x.test "eq_label" .categorical (.equal (.label (some label)))

def neLabel (x : Classifier) (label : String) : Except TermError Filter :=
  x.test "ne_label" .categorical (.notEqual (.label (some label)))

def isIn (x : Classifier) (labels : List String) : Except TermError Filter :=
  x.test "is_in" .categorical (.isIn (labels.map fun l => .label (some l)))

def startsWith (x : Classifier) (head : String) : Except TermError Filter :=
  x.test "starts_with" .categorical (.startsWith head)

def endsWith (x : Classifier) (tail : String) : Except TermError Filter :=
  x.test "ends_with" .categorical (.endsWith tail)

def contains (x : Classifier) (needle : String) : Except TermError Filter :=
  x.test "contains" .categorical (.contains needle)

def eqInt (x : Classifier) (n : Int64) : Except TermError Filter :=
  x.test "eq_int" .int64 (.equal (.int n))

def neInt (x : Classifier) (n : Int64) : Except TermError Filter :=
  x.test "ne_int" .int64 (.notEqual (.int n))

def isInInts (x : Classifier) (ns : List Int64) : Except TermError Filter :=
  x.test "is_in_ints" .int64 (.isIn (ns.map .int))

def isNull (x : Classifier) : Except TermError Filter := x.term.nullCheck false

def notNull (x : Classifier) : Except TermError Filter := x.term.nullCheck true

end Classifier

namespace Factor

def of? (t : Term) : Except TermError Factor := do
  t.expect .factor
  return ⟨t⟩

/-! ## Cell by cell -/

/-- An operator that yields numbers. -/
def arith (op : BinaryOp) (x : Factor) (y : Term.Operand) : Except TermError Factor :=
  mk <$> Term.binary op (.term x.term) y

/-- An operator that yields truth values. -/
def compare (op : BinaryOp) (x : Factor) (y : Term.Operand) : Except TermError Filter :=
  Filter.mk <$> Term.binary op (.term x.term) y

def unary (op : UnaryOp) (x : Factor) : Except TermError Factor := mk <$> Term.unary op x.term

def check (op : UnaryOp) (x : Factor) : Except TermError Filter :=
  Filter.mk <$> Term.unary op x.term

def isNull (x : Factor) : Except TermError Filter := x.term.nullCheck false

def notNull (x : Factor) : Except TermError Filter := x.term.nullCheck true

/-- `value` in place of missing cells. -/
def fillMissing (x : Factor) (value : Scalar) : Except TermError Factor := do
  (value.expect x.term.dtype).mapError .array
  mk <$> ({ kind := .fillMissing value, role := .factor, dtype := x.term.dtype,
            missing := some x.term.missing, inputs := [x.term] } : Draft).inheritSafety.build

/-- The newest row, as known on each session. -/
def latest (x : Factor) : Except TermError Factor :=
  mk <$> ({ kind := .latest, role := .factor, dtype := x.term.dtype,
            missing := some x.term.missing, window := 1, inputs := [x.term] } :
            Draft).inheritSafety.build

/-! ## Across a row -/

/-- Which cells take part, and whether each group is taken on its own. -/
structure Scope where
  mask : Option Filter := none
  groups : Option Classifier := none

/-- The inputs of a term over a scope. -/
def Scope.inputs (s : Scope) (x : Factor) : List Term :=
  x.term :: (s.groups.map Classifier.term).toList

def rank (x : Factor) (method : Stats.RankMethod) (ascending : Bool) (s : Scope) :
    Except TermError Factor :=
  mk <$> ({ kind := .rank method ascending s.groups.isSome, role := .factor, dtype := .float64,
            inputs := s.inputs x, mask := s.mask.map Filter.term, windowSafe := true } :
            Draft).build

def transform (x : Factor) (t : Transform) (s : Scope) : Except TermError Factor :=
  mk <$> ({ kind := .transform t s.groups.isSome, role := .factor, dtype := .float64,
            inputs := s.inputs x, mask := s.mask.map Filter.term, windowSafe := true } :
            Draft).build

/-- The `n` largest values of a row. -/
def top (x : Factor) (n : Nat) (mask : Option Filter) : Except TermError Filter := do
  (← x.rank .ordinal false { mask }).compare .le (.const (ofCount n))

/-- The `n` smallest values of a row. -/
def bottom (x : Factor) (n : Nat) (mask : Option Filter) : Except TermError Filter := do
  (← x.rank .ordinal true { mask }).compare .le (.const (ofCount n))

/-- Whether a number lies from 0 to 100. -/
def isPercentage (q : Float) : Bool := 0.0 ≤ q && q ≤ 100.0

/-- The values between two percentiles of their row. -/
def percentileBetween (x : Factor) (low high : Float) (mask : Option Filter) :
    Except TermError Filter :=
  if !isPercentage low || !isPercentage high || low > high then
    .error (.invalidParameter (.percentiles low high))
  else
    Filter.mk <$> ({ kind := .percentileBetween (.ofFloat low) (.ofFloat high), role := .filter,
                     dtype := .bool, inputs := [x.term], mask := mask.map Filter.term,
                     windowSafe := true } : Draft).build

/-- Buckets of a row, numbered from zero; -1 for a missing value. -/
def quantiles (x : Factor) (bins : Nat) (mask : Option Filter) : Except TermError Classifier :=
  if bins = 0 then .error (.invalidParameter .bins)
  else
    Classifier.mk <$> ({ kind := .quantiles bins, role := .classifier, dtype := .int64,
                         missing := some (.int (-1)), inputs := [x.term],
                         mask := mask.map Filter.term, windowSafe := true } : Draft).build

end Factor
end AsOf
