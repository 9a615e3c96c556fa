import AsOf.Text.Hidden

/-!
# Quoted text

`quote` writes a text between double quotes so that every character can be
seen: quotes, backslashes and the usual controls get a backslash, a character
without a glyph is spelled by its number.
-/
namespace AsOf.Text

/-- Lower-case hexadecimal digits, without leading zeros. -/
def hex (n : Nat) : String := String.ofList (Nat.toDigits 16 n)

/-- One character of a quoted text. -/
def quoteChar (c : Char) : String :=
  if c = '"' then "\\\""
  else if c = '\\' then "\\\\"
  else if c = '\n' then "\\n"
  else if c = '\r' then "\\r"
  else if c = '\t' then "\\t"
  else if c = Char.ofNat 0 then "\\0"
  else if c.toNat < 0x20 || (0x7f ≤ c.toNat && isHidden c.toNat) then
    "\\u\x7b" ++ hex c.toNat ++ "\x7d"
  else c.toString

/-- A text between quotes. -/
def quote (s : String) : String :=
  "\"" ++ String.join (s.toList.map quoteChar) ++ "\""

/-- Items between brackets, a comma and a blank between two of them. -/
def bracketed (items : List String) : String :=
  "[" ++ ", ".intercalate items ++ "]"

/-- Texts between quotes, in brackets. -/
def quoteList (items : List String) : String := bracketed (items.map quote)

/-- A pair of sizes. -/
def pair (p : Nat × Nat) : String := "(" ++ toString p.1 ++ ", " ++ toString p.2 ++ ")"

/-! ## Parts of a text -/

/-- Whether `needle` stands somewhere in the text. -/
def occursIn (needle : List Char) : List Char → Bool
  | [] => needle.isEmpty
  | c :: cs => needle.isPrefixOf (c :: cs) || occursIn needle cs

/-- A text padded on the right to a number of characters. -/
def padRight (n : Nat) (s : String) : String :=
  s ++ String.ofList (List.replicate (n - s.length) ' ')

/-- A text padded on the left to a number of characters. -/
def padLeft (n : Nat) (s : String) : String :=
  String.ofList (List.replicate (n - s.length) ' ') ++ s

/-- A natural with at least `n` digits. -/
def zeroPadded (n : Nat) (k : Nat) : String :=
  let s := toString k
  String.ofList (List.replicate (n - s.length) '0') ++ s

end AsOf.Text
