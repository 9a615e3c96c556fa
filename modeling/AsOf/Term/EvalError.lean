import AsOf.Array.Error

/-!
# What can go wrong in an evaluation
-/
namespace AsOf

/-- What an input was expected to be. -/
inductive InputForm where
  | window
  | block
  | numbers
  | classifier
  | testable
deriving DecidableEq, Repr

def InputForm.text : InputForm → String
  | window => "a window traversal"
  | block => "a block"
  | numbers => "numeric or boolean"
  | classifier => "a classifier"
  | testable => "a classifier matching the predicate"

/-- What a custom kernel did wrong. -/
inductive KernelFault where
  | refused (reason : String)
  | returned (values : Nat) (dtype : Dtype) (assets : Nat)

def KernelFault.text : KernelFault → String
  | refused reason => reason
  | returned values dtype assets =>
    s!"returned {values} " ++ dtype.name ++ s!" values for {assets} assets"

/-- Why a term cannot be evaluated; `term` is its text. -/
inductive EvalError where
  | notComputable (term : String)
  | inputCount (term : String) (expected actual : Nat)
  | inputForm (term : String) (index : Nat) (expected : InputForm)
  | windowExhausted (term : String) (index row : Nat)
  | shapeMismatch (term : String) (expected actual : Nat × Nat)
  | kernel (term : String) (fault : KernelFault)
  | array (e : ArrayError)

def EvalError.message : EvalError → String
  | notComputable term => term ++ " is loadable and cannot be computed"
  | inputCount term expected actual => term ++ s!" expects {expected} inputs, got {actual}"
  | inputForm term index expected => s!"Input {index} of " ++ term ++ " must be " ++ expected.text
  | windowExhausted term index row =>
    s!"Window for input {index} of " ++ term ++ s!" ended at output row {row}"
  | shapeMismatch term expected actual =>
    term ++ " produced shape " ++ Text.pair actual ++ ", expected " ++ Text.pair expected
  | kernel term fault => term ++ " failed: " ++ fault.text
  | array e => e.message

end AsOf
