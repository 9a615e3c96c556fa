import AsOf.Term.Handles

/-!
# Windowed terms

Terms that read a window of their inputs: the built-in kernels, with the roles
their inputs must have, and custom ones.
-/
namespace AsOf

/-- The term of a window kernel. -/
def Term.windowed (k : WindowKernel) (inputs : List Term) (window : UInt64) :
    Except TermError Term :=
  ({ kind := .window k, role := .ofDtype k.dtype, dtype := k.dtype, window, inputs,
     windowSafe := k.windowSafe } : Draft).build

/-- The term of a custom kernel; labels it cannot make. -/
def Term.custom (k : RowKernel) (inputs : List Term) (window : UInt64) (mask : Option Filter) :
    Except TermError Term :=
  if k.dtype = .categorical then .error (.unsupported "custom kernel" .categorical)
  else
    ({ kind := .custom k, role := .ofDtype k.dtype, dtype := k.dtype, missing := k.missing, window,
       inputs, mask := mask.map Filter.term, windowSafe := k.windowSafe } : Draft).build

/-- Whether an input, which must not be a filter, is present throughout. -/
def Term.allPresent (x : Term) (window : UInt64) : Except TermError Filter :=
  if x.role = .filter then .error (.unsupported "all_present" x.dtype)
  else Filter.mk <$> windowed .allPresent [x] window

namespace Filter

def windowed (k : WindowKernel) (x : Filter) (window : UInt64) : Except TermError Filter :=
  mk <$> Term.windowed k [x.term] window

def all (x : Filter) (window : UInt64) : Except TermError Filter := windowed .all x window

def any (x : Filter) (window : UInt64) : Except TermError Filter := windowed .any x window

def atLeast (x : Filter) (window : UInt64) (n : Nat) : Except TermError Filter :=
  windowed (.atLeast n) x window

end Filter

namespace Factor

def windowed (k : WindowKernel) (inputs : List Factor) (window : UInt64) :
    Except TermError Factor :=
  mk <$> Term.windowed k (inputs.map Factor.term) window

def movingAverage (x : Factor) (window : UInt64) : Except TermError Factor :=
  windowed .simpleMovingAverage [x] window

/-- The moving average in which a session weighs `rate` times the one after it. -/
def exponentialAverage (x : Factor) (window : UInt64) (rate : Float) : Except TermError Factor :=
  if rate > 0.0 && rate ≤ 1.0 then
    windowed (.exponentialMovingAverage (.ofFloat rate)) [x] window
  else .error (.invalidParameter (.decayRate rate))

def exponentialAverageOfSpan (x : Factor) (window : UInt64) (span : Float) :
    Except TermError Factor :=
  if span < 1.0 then .error (.invalidParameter (.span span))
  else x.exponentialAverage window (1.0 - 2.0 / (span + 1.0))

def exponentialAverageOfHalflife (x : Factor) (window : UInt64) (halflife : Float) :
    Except TermError Factor :=
  if halflife ≤ 0.0 then .error (.invalidParameter (.halflife halflife))
  else x.exponentialAverage window ((0.5 : Float).pow (1.0 / halflife))

def returns (x : Factor) (window : UInt64) : Except TermError Factor :=
  windowed .returns [x] window

def averageDollarVolume (price volume : Factor) (window : UInt64) : Except TermError Factor :=
  windowed .averageDollarVolume [price, volume] window

def vwap (price volume : Factor) (window : UInt64) : Except TermError Factor :=
  windowed .vwap [price, volume] window

def annualizedVolatility (x : Factor) (window : UInt64) (factor : Float) :
    Except TermError Factor :=
  windowed (.annualizedVolatility (.ofFloat factor)) [x] window

def maxDrawdown (x : Factor) (window : UInt64) : Except TermError Factor :=
  windowed .maxDrawdown [x] window

end Factor
end AsOf
