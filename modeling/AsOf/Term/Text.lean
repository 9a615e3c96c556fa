import AsOf.Term.Basic

/-!
# Terms as text

A term is written as a call or a formula over the texts of its inputs. Its mask
does not show.
-/
namespace AsOf

namespace LabelTest

/-- One value of a list to choose from. -/
def choiceText : Scalar → String
  | .label (some l) => "Label(Some(" ++ Text.quote l ++ "))"
  | .label none => "Label(None)"
  | .int n => "Int(" ++ toString n ++ ")"
  | .bool b => "Bool(" ++ toString b ++ ")"
  | .time t => "Datetime(" ++ toString t ++ ")"
  | .float x => "Float(" ++ Decimal.cast.write x ++ ")"

/-- The test of an input. -/
def text (input : String) : LabelTest → String
  | equal v => "(" ++ input ++ " == " ++ v.text ++ ")"
  | notEqual v => "(" ++ input ++ " != " ++ v.text ++ ")"
  | isIn vs => input ++ ".is_in(" ++ Text.bracketed (vs.map choiceText) ++ ")"
  | startsWith s => input ++ ".starts_with(" ++ Text.quote s ++ ")"
  | endsWith s => input ++ ".ends_with(" ++ Text.quote s ++ ")"
  | contains s => input ++ ".contains(" ++ Text.quote s ++ ")"

end LabelTest

/-- A formula with the texts of its inputs in place. -/
def Expr.textOver (inputs : List String) : Expr → String
  | input i => inputs.getD i ("x_" ++ toString i)
  | const c => c.text
  | unary op e => op.name ++ "(" ++ e.textOver inputs ++ ")"
  | binary op a b => "(" ++ a.textOver inputs ++ " " ++ op.name ++ " " ++ b.textOver inputs ++ ")"

def Stats.RankMethod.name : Stats.RankMethod → String
  | ordinal => "Ordinal"
  | average => "Average"
  | min => "Min"
  | max => "Max"
  | dense => "Dense"

namespace Kind

/-- A call of `name` on the first input, if there is one, and some arguments. -/
def call (name : String) (inputs : List String) (arguments : String) : String :=
  match inputs with
  | input :: _ => name ++ "(" ++ input ++ arguments ++ ")"
  | [] => name ++ "()"

/-- The text of a node over the texts of its inputs. -/
def text (inputs : List String) (window : UInt64) (k : Kind) : String :=
  match k with
  | assetExists => "AssetExists()"
  | column c => c.qualifiedName
  | constant value => "Constant(" ++ value.text ++ ")"
  | latest =>
    match inputs with
    | input :: _ => input ++ ".latest"
    | [] => "Latest()"
  | expression e => e.textOver inputs
  | .window _ | custom _ =>
    k.name ++ "(" ++ String.join (inputs.map (· ++ ", ")) ++ s!"window_length={window})"
  | rank method ascending _ =>
    call "Rank" inputs (", method=" ++ method.name ++ s!", ascending={ascending}")
  | quantiles bins => call "Quantiles" inputs s!", bins={bins}"
  | percentileBetween low high =>
    call "PercentileBetween" inputs (", " ++ low.text ++ ", " ++ high.text)
  | fillMissing value => call "FillNa" inputs (", " ++ value.text)
  | staticAssets sids => "StaticAssets(" ++ Text.bracketed (sids.map Sid.text) ++ ")"
  | labelTest test => test.text (inputs.headD "")
  | transform _ _ | nullCheck _ => call k.name inputs ""

end Kind

namespace Term

mutual
def text : Term → String
  | mk head inputs _ => head.kind.text (texts inputs) head.window

def texts : List Term → List String
  | [] => []
  | t :: ts => text t :: texts ts
end

end Term
end AsOf
