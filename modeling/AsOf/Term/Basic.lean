import AsOf.Dataset
import AsOf.Expr
import AsOf.Kernel.Custom
import AsOf.Kernel.Window
import AsOf.Stats.Rank

/-!
# Terms

A `Term` is a node of a computation over sessions and assets: what it does (its
`Kind`), the type of its cells and what stands for a missing one, how many
sessions of its inputs it sees, its inputs and, if it has one, its mask. Terms
are trees; a computation that shares a term holds it at several places, and
`Term.same` recognises it.

Results:
* `Term.induction`: to prove a statement of all terms, prove it of a node whose
  inputs and mask satisfy it.
-/
namespace AsOf

/-- What a row is compared with itself for. -/
inductive Transform where
  | demean
  | zscore
deriving DecidableEq, Repr

/-- A question about a label or an integer. -/
inductive LabelTest where
  | equal (value : Scalar)
  | notEqual (value : Scalar)
  | isIn (values : List Scalar)
  | startsWith (head : String)
  | endsWith (tail : String)
  | contains (needle : String)

namespace LabelTest

def same : LabelTest → LabelTest → Bool
  | equal a, equal b => a == b
  | notEqual a, notEqual b => a == b
  | isIn a, isIn b => a == b
  | startsWith a, startsWith b => a == b
  | endsWith a, endsWith b => a == b
  | contains a, contains b => a == b
  | _, _ => false

instance : BEq LabelTest := ⟨same⟩

end LabelTest

/-- What a term does. -/
inductive Kind where
  /-- Whether the asset is in the universe. -/
  | assetExists
  | column (c : Column)
  | constant (value : Scalar)
  /-- The newest row of a window. -/
  | latest
  | expression (e : Expr)
  | window (k : WindowKernel)
  | custom (k : RowKernel)
  | rank (method : Stats.RankMethod) (ascending grouped : Bool)
  | transform (t : Transform) (grouped : Bool)
  | quantiles (bins : Nat)
  | percentileBetween (low high : Param)
  | nullCheck (negate : Bool)
  | fillMissing (value : Scalar)
  | staticAssets (sids : List Sid)
  | labelTest (test : LabelTest)

namespace Kind

def name : Kind → String
  | assetExists => "AssetExists"
  | column _ => "Column"
  | constant _ => "Constant"
  | latest => "Latest"
  | expression _ => "Expression"
  | window k => k.name
  | custom k => k.name
  | rank _ _ _ => "Rank"
  | transform .demean _ => "Demean"
  | transform .zscore _ => "ZScore"
  | quantiles _ => "Quantiles"
  | percentileBetween _ _ => "PercentileBetween"
  | nullCheck false => "IsNull"
  | nullCheck true => "NotNull"
  | fillMissing _ => "FillNa"
  | staticAssets _ => "StaticAssets"
  | labelTest _ => "LabelPredicate"

/-- Loaded or given, not computed. -/
def isLoadable : Kind → Bool
  | column _ | assetExists => true
  | _ => false

/-- Whether the value of an asset depends on other assets of the row. -/
def isCrossSectional : Kind → Bool
  | rank _ _ _ | transform _ _ | quantiles _ | percentileBetween _ _ | custom _ => true
  | _ => false

/-- The shortest window, for a kind that reads windows. -/
def minimumWindow? : Kind → Option UInt64
  | window k => some k.minimumWindow
  | custom _ | latest => some 1
  | _ => none

def same : Kind → Kind → Bool
  | assetExists, assetExists | latest, latest => true
  | column a, column b => a == b
  | constant a, constant b | fillMissing a, fillMissing b => a == b
  | expression a, expression b => a == b
  | window a, window b => a == b
  | custom a, custom b => a == b
  | rank m a g, rank m' a' g' => m == m' && a == a' && g == g'
  | transform t g, transform t' g' => t == t' && g == g'
  | quantiles a, quantiles b => a == b
  | percentileBetween l h, percentileBetween l' h' => l == l' && h == h'
  | nullCheck a, nullCheck b => a == b
  | staticAssets a, staticAssets b => a == b
  | labelTest a, labelTest b => a == b
  | _, _ => false

instance : BEq Kind := ⟨same⟩

end Kind

/-- A node without its edges. -/
structure Head where
  kind : Kind
  role : Role
  dtype : Dtype
  missing : Scalar
  /-- Sessions of each input that one row sees; 0 for a kind that reads blocks. -/
  window : UInt64
  domain : Domain
  /-- The values stay the same when history is restated. -/
  windowSafe : Bool

namespace Head

def same (a b : Head) : Bool :=
  a.kind == b.kind && a.role == b.role && a.dtype == b.dtype && a.missing == b.missing &&
    a.window == b.window && a.windowSafe == b.windowSafe && a.domain == b.domain

instance : BEq Head := ⟨same⟩

end Head

/-- A node of a computation. -/
inductive Term where
  | mk (head : Head) (inputs : List Term) (mask : Option Term)

namespace Term

def head : Term → Head
  | mk head _ _ => head

def inputs : Term → List Term
  | mk _ inputs _ => inputs

def mask : Term → Option Term
  | mk _ _ mask => mask

def kind (t : Term) : Kind := t.head.kind
def role (t : Term) : Role := t.head.role
def dtype (t : Term) : Dtype := t.head.dtype
def missing (t : Term) : Scalar := t.head.missing
def window (t : Term) : UInt64 := t.head.window
def domain (t : Term) : Domain := t.head.domain
def windowSafe (t : Term) : Bool := t.head.windowSafe
def isLoadable (t : Term) : Bool := t.kind.isLoadable

/-- The column that the term reads, if it is one. -/
def column? (t : Term) : Option Column :=
  match t.kind with
  | .column c => some c
  | _ => none

/-! ## Recursion over a term -/

/-- Induction over a term, its inputs and its mask. -/
theorem induction {P : Term → Prop}
    (node : ∀ head inputs mask, (∀ t ∈ inputs, P t) → (∀ t ∈ mask, P t) → P (mk head inputs mask))
    (t : Term) : P t :=
  Term.rec (motive_1 := P) (motive_2 := fun ts => ∀ t ∈ ts, P t)
    (motive_3 := fun m => ∀ t ∈ m, P t)
    (fun head inputs mask hi hm => node head inputs mask hi hm)
    (fun _ h => nomatch h)
    (fun _ _ h hs t ht => by
      rcases List.mem_cons.1 ht with rfl | ht
      · exact h
      · exact hs t ht)
    (fun _ h => nomatch h)
    (fun _ h t ht => by cases ht; exact h)
    t

mutual
/-- The same node over the same inputs and mask. -/
def same : Term → Term → Bool
  | mk h is m, mk h' is' m' => h == h' && sameAll is is' && sameMask m m'

def sameAll : List Term → List Term → Bool
  | [], [] => true
  | a :: as, b :: bs => same a b && sameAll as bs
  | _, _ => false

def sameMask : Option Term → Option Term → Bool
  | none, none => true
  | some a, some b => same a b
  | _, _ => false
end

instance : BEq Term := ⟨same⟩

end Term
end AsOf
