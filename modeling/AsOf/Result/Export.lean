import AsOf.Decimal.Layout
import AsOf.Result.Basic

/-!
# Exported results

A result is exported as comma-separated text, as records (objects with the keys
`date`, `sid` and the column names, in the order of the keys; a column of one of
these names replaces it) or as the shape of a table. Missing values are empty
fields, `null` or nulls.
-/
namespace AsOf

/-! ## Comma-separated text -/

namespace Csv

/-- Whether a field has to stand between quotes. -/
def needsQuotes (s : String) : Bool :=
  s.toList.any fun c => c == ',' || c == '"' || c == '\n' || c == '\r'

/-- A field; a quote inside quotes is written twice. -/
def field (s : String) : String :=
  if needsQuotes s then
    "\"" ++ String.join (s.toList.map fun c => if c = '"' then "\"\"" else c.toString) ++ "\""
  else s

/-- A line of fields. -/
def line (fields : List String) : String := ",".intercalate (fields.map field) ++ "\n"

/-- A value as a field. -/
def value : Scalar → String
  | .float x => if x.isNaN then "" else Decimal.plain.write x
  | .int n => toString n
  | .bool b => toString b
  | .time t => if t = notATime then "" else toString t
  | .label l => l.getD ""

end Csv

/-! ## Records -/

/-- A value of a record. -/
inductive Exported where
  | null
  | bool (b : Bool)
  | int (n : Int)
  | number (x : Float)
  | text (s : String)

namespace Exported

/-- Infinities are missing in a record, as NaN is. -/
def ofScalar : Scalar → Exported
  | .float x => if x.isFinite then number x else null
  | .int n => int n.toInt
  | .bool b => bool b
  | .time t => if t = notATime then null else int t.toInt
  | .label (some l) => text l
  | .label none => null

/-- One character of a text. -/
def escape (c : Char) : String :=
  if c = '"' then "\\\""
  else if c = '\\' then "\\\\"
  else if c = '\n' then "\\n"
  else if c = '\r' then "\\r"
  else if c = '\t' then "\\t"
  else if c.toNat = 8 then "\\b"
  else if c.toNat = 12 then "\\f"
  else if c.toNat < 0x20 then
    "\\u00" ++ (if c.toNat < 0x10 then "0" else "") ++ Text.hex c.toNat
  else c.toString

/-- A text between quotes. -/
def quoted (s : String) : String := "\"" ++ String.join (s.toList.map escape) ++ "\""

def write : Exported → String
  | null => "null"
  | bool b => toString b
  | int n => toString n
  | number x => Decimal.exported.write x
  | text s => quoted s

end Exported

/-- A record: values by key. -/
abbrev Record := Named Exported

namespace Record

/-- All on one line. -/
def write (r : Record) : String :=
  "\x7b" ++ ",".intercalate (r.map fun (k, v) => Exported.quoted k ++ ":" ++ v.write) ++ "\x7d"

/-- One key a line, indented. -/
def writePretty (r : Record) : String :=
  if r.isEmpty then "  \x7b\x7d"
  else "  \x7b\n" ++
    ",\n".intercalate (r.map fun (k, v) => "    " ++ Exported.quoted k ++ ": " ++ v.write) ++
    "\n  \x7d"

end Record

namespace Result

/-- The values of row `i` by column. -/
def valuesAt (r : Result) (i : Nat) : List (String × Scalar) :=
  r.columns.filterMap fun (name, v) => (v.get? i).map (name, ·)

/-- Date, asset and values of every row. -/
def rows (r : Result) : List (Date × Sid × List (String × Scalar)) :=
  (r.dates.toList.zip r.sids.toList).zipIdx.map fun ((d, s), i) => (d, s, r.valuesAt i)

/-- Comma-separated text, with a line of names first. -/
def toCsv (r : Result) : String :=
  Csv.line ("date" :: "sid" :: r.names) ++
    String.join (r.rows.map fun (d, s, vs) =>
      Csv.line (d.text :: s.text :: vs.map fun (_, v) => Csv.value v))

/-- One record a row. -/
def toRecords (r : Result) : List Record :=
  r.rows.map fun (d, s, vs) =>
    Named.ofList (("date", .text d.text) :: ("sid", .int s.toNat) ::
      vs.map fun (name, v) => (name, .ofScalar v))

def toJson (r : Result) : String :=
  "[" ++ ",".intercalate (r.toRecords.map Record.write) ++ "]"

def toPrettyJson (r : Result) : String :=
  match r.toRecords with
  | [] => "[]"
  | records => "[\n" ++ ",\n".intercalate (records.map Record.writePretty) ++ "\n]"

/-! ## Tables -/

/-- A column of a table: its name, its type, its length and its nulls. -/
structure TableColumn where
  name : String
  dtype : String
  length : Nat
  nulls : Nat

/-- What a table calls the type of some values. -/
def tableDtype : Values → String
  | .floats _ => "f64"
  | .ints _ => "i64"
  | .bools _ => "bool"
  | .times _ => "datetime[ns]"
  | .labels _ => "str"

/-- A value that a table does not hold. -/
def isNull : Scalar → Bool
  | .float x => x.isNaN
  | .time t => t == notATime
  | .label l => l.isNone
  | _ => false

/-- The columns of the table: date, asset and values. Names may not repeat. -/
def toTable (r : Result) : Except ExportError (List TableColumn) := do
  if let some name := r.names.find? fun n => n == "date" || n == "sid" then
    throw (.duplicateColumn name)
  return ⟨"date", "date", r.length, 0⟩ :: ⟨"sid", "u32", r.length, 0⟩ ::
    r.columns.map fun (name, v) => ⟨name, tableDtype v, v.length, v.toScalars.countP isNull⟩

end Result
end AsOf
