import AsOf.Config.Basic
import AsOf.Named

/-!
# Settings as text

Settings are written in TOML, one `key = value` on a line. `Config.ofText` reads
them: a key is bare or a quoted text, a value is an integer or a truth value,
and comments and blank lines may stand between. Every other document is no list
of settings, as is one that sets a key twice, a key that is not known or a key
to a value of the wrong type.
-/
namespace AsOf

namespace Setting

/-! ## Characters -/

def isBlank (c : Char) : Bool := c = ' ' || c = '\t'

def skipBlanks (cs : List Char) : List Char := cs.dropWhile isBlank

/-- What no line may hold: a control that is not a tab. -/
def isControl (c : Char) : Bool := (c.toNat < 0x20 && c != '\t') || c.toNat = 0x7f

def isBareKey (c : Char) : Bool := c.isAlphanum || c = '_' || c = '-'

/-- The value of a digit in bases up to sixteen. -/
def digit? (base : Nat) (c : Char) : Option Nat :=
  let d :=
    if '0' ≤ c && c ≤ '9' then c.toNat - '0'.toNat
    else if 'a' ≤ c && c ≤ 'f' then c.toNat - 'a'.toNat + 10
    else if 'A' ≤ c && c ≤ 'F' then c.toNat - 'A'.toNat + 10
    else base
  if d < base then some d else none

/-! ## Values -/

/-- A value that a setting may have. -/
inductive Value where
  | integer (n : Int)
  | truth (b : Bool)
deriving DecidableEq, Repr

/-- Digits behind a number; an underscore may stand between two of them. -/
def digitsFrom (base n : Nat) : List Char → Option Nat
  | [] => some n
  | '_' :: c :: cs => do digitsFrom base (n * base + (← digit? base c)) cs
  | c :: cs => do digitsFrom base (n * base + (← digit? base c)) cs

/-- A number without a sign. -/
def digits? (base : Nat) : List Char → Option Nat
  | [] => none
  | c :: cs => do digitsFrom base (← digit? base c) cs

/-- A decimal number without a sign, which does not begin with a needless zero. -/
def decimal? : List Char → Option Nat
  | '0' :: _ :: _ => none
  | cs => digits? 10 cs

/-- An integer of 64 bits: hexadecimal, octal, binary, or decimal with or without a sign. -/
def integer? (cs : List Char) : Option Int := do
  let n ← match cs with
    | '0' :: 'x' :: cs => (digits? 16 cs).map Int.ofNat
    | '0' :: 'o' :: cs => (digits? 8 cs).map Int.ofNat
    | '0' :: 'b' :: cs => (digits? 2 cs).map Int.ofNat
    | '-' :: cs => (decimal? cs).map fun n => -Int.ofNat n
    | '+' :: cs => (decimal? cs).map Int.ofNat
    | cs => (decimal? cs).map Int.ofNat
  if Int64.minValue.toInt ≤ n && n ≤ Int64.maxValue.toInt then some n else none

def value? (cs : List Char) : Option Value :=
  if cs = "true".toList then some (.truth true)
  else if cs = "false".toList then some (.truth false)
  else (integer? cs).map .integer

/-! ## Keys -/

/-- The character with a number of `n` hexadecimal digits, and what follows it. -/
def numbered? (n : Nat) (cs : List Char) : Option (Char × List Char) := do
  let ds ← (cs.take n).mapM (digit? 16)
  if ds.length ≠ n then none
  let code := ds.foldl (fun v d => v * 16 + d) 0
  if code.isValidChar then some (Char.ofNat code, cs.drop n) else none

/-- The character of an escape, and what follows it. -/
def escape? : List Char → Option (Char × List Char)
  | 'b' :: cs => some (Char.ofNat 8, cs)
  | 't' :: cs => some ('\t', cs)
  | 'n' :: cs => some ('\n', cs)
  | 'f' :: cs => some (Char.ofNat 12, cs)
  | 'r' :: cs => some ('\r', cs)
  | '"' :: cs => some ('"', cs)
  | '\\' :: cs => some ('\\', cs)
  | 'u' :: cs => numbered? 4 cs
  | 'U' :: cs => numbered? 8 cs
  | _ => none

/-- The rest of a key between double quotes, and what follows it. -/
def quoted? : Nat → List Char → Option (List Char × List Char)
  | _, '"' :: cs => some ([], cs)
  | bound + 1, '\\' :: cs => do
    let (c, cs) ← escape? cs
    let (key, cs) ← quoted? bound cs
    return (c :: key, cs)
  | bound + 1, c :: cs => do
    let (key, cs) ← quoted? bound cs
    return (c :: key, cs)
  | _, _ => none

/-- A key and what follows it. -/
def key? : List Char → Option (List Char × List Char)
  | '"' :: cs => quoted? cs.length cs
  | '\'' :: cs =>
    match cs.dropWhile (· != '\'') with
    | [] => none
    | _ :: rest => some (cs.takeWhile (· != '\''), rest)
  | cs =>
    let key := cs.takeWhile isBareKey
    if key.isEmpty then none else some (key, cs.dropWhile isBareKey)

/-! ## Lines -/

/-- Whether nothing but blanks and a comment is left of a line. -/
def isOver (cs : List Char) : Bool :=
  match skipBlanks cs with
  | [] => true
  | c :: _ => c = '#'

/-- A key and its value. -/
def ofLine? (cs : List Char) : Option (String × Value) := do
  let (key, cs) ← key? (skipBlanks cs)
  match skipBlanks cs with
  | '=' :: cs =>
    let cs := skipBlanks cs
    let isEnd (c : Char) := isBlank c || c = '#'
    let value ← value? (cs.takeWhile (!isEnd ·))
    if isOver (cs.dropWhile (!isEnd ·)) then some (String.ofList key, value) else none
  | _ => none

/-- Lines end in a line feed, which a carriage return may precede. -/
def lines : List Char → List (List Char)
  | [] => [[]]
  | '\n' :: cs => [] :: lines cs
  | '\r' :: '\n' :: cs => [] :: lines cs
  | c :: cs =>
    match lines cs with
    | [] => [[c]]
    | line :: rest => (c :: line) :: rest

/-- The settings of a document, in order. -/
def ofText? (s : String) : Option (List (String × Value)) := do
  let cs := match s.toList with
    | c :: cs => if c.toNat = 0xfeff then cs else c :: cs
    | [] => []
  let ls := lines cs
  if ls.any (·.any isControl) then none
  (ls.filter (!isOver ·)).mapM ofLine?

end Setting

namespace Config

/-- The settings with one of them changed, if key and type are right. -/
def set? (c : Config) (key : String) (value : Setting.Value) : Option Config :=
  match key, value with
  | "chunk_size", .integer n => if 0 ≤ n then some { c with chunkSize := .ofNat n.toNat } else none
  | "parallel", .truth b => some { c with parallel := b }
  | "prescreen", .truth b => some { c with prescreen := b }
  | "release_intermediates", .truth b => some { c with releaseIntermediates := b }
  | _, _ => none

/-- The settings that a list of them changes; none may be set twice. -/
def ofSettings? (settings : List (String × Setting.Value)) : Option Config :=
  if (settings.map (·.1)).Nodup then
    settings.foldlM (fun c (key, value) => c.set? key value) default
  else none

/-- Reads settings and checks them. -/
def ofText (s : String) : Except ConfigError Config :=
  match Setting.ofText? s >>= ofSettings? with
  | some c => c.validate
  | none => .error .malformed

end Config
end AsOf
